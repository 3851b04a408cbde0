/- When an accepted composite key is as small as its index expects, and spares the leaves. -/

import GraniteDb.Access.CompositeKeyCodec
import GraniteDb.Access.FilledLeaves

namespace GraniteDb.Access.KeySizes

open Common.Types Common.Value Lib.Task Access.BTreePage Access.CompositeKeyCodec
open Access.FilledLeaves
open Recovery.WalRecords (Bytes)
open Execution.TupleFile (cut fieldBytes_eq)
open Access.HeapFile (payloadBytes)
open Access.IndexScan (IndexKeyColumnDefinition NullPolicy)
open Access.PageTasks (IndexFile)
open Storage.HeapTupleCodec (length_valueBytes)
open Storage.SlottedPage (headerSize slotSize)
open List (mem_cons_self length_cons sum_cons mem_singleton mem_cons_of_mem)

section Sizes

def declaredBytes (col : IndexKeyColumnDefinition) : Nat :=
  match col.type with
  | .boolean => 2
  | .int32 => 5
  | .int64 => 9
  | .double => 9
  | .varchar => 5 + col.maxVarcharLen
  | .invalid => 0

/-- What a string adds that no declared length counts: `EncodeKey` checks none of length 0. -/
def uncountedBytes (col : IndexKeyColumnDefinition) : Value → Nat
  | .varchar s => if col.maxVarcharLen = 0 then s.length % 2 ^ 32 else 0
  | _ => 0

def unusedBytes (col : IndexKeyColumnDefinition) : Value → Nat
  | .null _ => declaredBytes col - 1
  | .varchar s => col.maxVarcharLen - s.length
  | _ => 0

def declaredTotal (definition : List IndexKeyColumnDefinition) : Nat :=
  (definition.map declaredBytes).sum

def uncountedTotal (definition : List IndexKeyColumnDefinition) (key : List Value) : Nat :=
  (List.zipWith uncountedBytes definition key).sum

def unusedTotal (definition : List IndexKeyColumnDefinition) (key : List Value) : Nat :=
  (List.zipWith unusedBytes definition key).sum

/-- What no column counts, and what the sum of the columns loses at 32 bits, is made up for by what
other values leave unused. -/
def MadeUp (definition : List IndexKeyColumnDefinition) (key : List Value) : Prop :=
  2 ^ 32 * (declaredTotal definition / 2 ^ 32) + uncountedTotal definition key ≤
    unusedTotal definition key

def Proper (col : IndexKeyColumnDefinition) : Prop :=
  col.type ≠ .invalid ∧ col.maxVarcharLen < 2 ^ 32

variable {col : IndexKeyColumnDefinition} {definition : List IndexKeyColumnDefinition}
  {bytes : Bytes} {policy : NullPolicy}

theorem maxEncodedValueSize_proper (proper : Proper col) :
    maxEncodedValueSize col = .ok (declaredBytes col % 2 ^ 32) := by
  obtain ⟨valid, _⟩ := proper
  rw [maxEncodedValueSize, declaredBytes]
  cases type : col.type with
  | invalid => exact absurd type valid
  | boolean | int32 | int64 | double => rfl
  | varchar => rfl

theorem getMaxEncodedKeySize_eq (proper : ∀ col ∈ definition, Proper col) :
    getMaxEncodedKeySize definition = .ok (declaredTotal definition % 2 ^ 32) := by
  have sums (total : Nat) : definition.foldlM (fun total col =>
      (maxEncodedValueSize col).map fun n => (total + n) % 2 ^ 32) (total % 2 ^ 32) =
        .ok ((total + declaredTotal definition) % 2 ^ 32) := by
    induction definition generalizing total with
    | nil => rfl
    | cons col definition ih =>
      have first := maxEncodedValueSize_proper (proper col mem_cons_self)
      have rest := ih (fun c member => proper c (mem_cons_of_mem _ member))
        (total + declaredBytes col)
      have step : (total % 2 ^ 32 + declaredBytes col % 2 ^ 32) % 2 ^ 32 =
          (total + declaredBytes col) % 2 ^ 32 := (Nat.add_mod _ _ _).symm
      rw [List.foldlM_cons, first, declaredTotal, List.map_cons, sum_cons, ← Nat.add_assoc]
      show List.foldlM _ ((total % 2 ^ 32 + declaredBytes col % 2 ^ 32) % 2 ^ 32) definition = _
      rw [step]
      exact rest
  have all := sums 0
  rwa [Nat.zero_mod, Nat.zero_add] at all

theorem encodeComponent_length {v : Value} (proper : Proper col)
    (encoded : encodeComponent policy col v = .ok bytes) :
    bytes.length + unusedBytes col v = declaredBytes col + uncountedBytes col v := by
  obtain ⟨valid, narrow⟩ := proper
  rw [encodeComponent] at encoded
  split at encoded
  · rename_i absent
    split at encoded
    · cases encoded
    split at encoded
    · cases encoded
      cases v with
      | null type =>
        have some : 1 ≤ declaredBytes col := by
          rw [declaredBytes]
          split
          case h_6 type => exact absurd type valid
          all_goals omega
        rw [unusedBytes, uncountedBytes, List.length_singleton]
        · omega
        · intro s isString
          cases isString
      | _ => cases absent
    · cases encoded
  · rename_i present
    split at encoded
    · cases encoded
    rename_i typed
    rw [not_not] at typed
    split at encoded
    · cases encoded
    rename_i counted
    cases encoded
    rw [length_cons, fieldBytes_eq, length_valueBytes, declaredBytes, ← typed]
    cases v with
    | null type => exact absurd rfl present
    | varchar s =>
      have size : payloadBytes (cut (.varchar s)) = 4 + s.length % 2 ^ 32 := by
        have short : s.length % 2 ^ 32 ≤ s.length := Nat.mod_le _ _
        rw [cut, payloadBytes, List.length_take, Nat.min_eq_left short]
      rw [size, unusedBytes, uncountedBytes]
      show _ = 5 + col.maxVarcharLen + _
      split
      · omega
      · rename_i limited
        have within : s.length ≤ col.maxVarcharLen := by
          simp only [exceeds, decide_eq_true_eq] at counted
          omega
        rw [Nat.mod_eq_of_lt (by omega)]
        omega
    | boolean b | int32 n | int64 n | double d => rfl

theorem encodeKey_length {key : List Value} (proper : ∀ col ∈ definition, Proper col)
    (encoded : encodeKey key definition policy = .ok bytes) :
    bytes.length + unusedTotal definition key =
      declaredTotal definition + uncountedTotal definition key := by
  rw [encodeKey] at encoded
  split at encoded
  · cases encoded
  rename_i sameLength
  rw [not_not] at sameLength
  induction definition generalizing key bytes with
  | nil =>
    cases encoded
    rfl
  | cons col definition ih =>
    cases key with
    | nil => cases sameLength
    | cons v key =>
      rw [encodeComponents] at encoded
      cases first : encodeComponent policy col v with
      | error message =>
        rw [first] at encoded
        cases encoded
      | ok component =>
        rw [first] at encoded
        cases others : encodeComponents policy definition key with
        | error message =>
          rw [others] at encoded
          cases encoded
        | ok out =>
          rw [others] at encoded
          cases encoded
          have here := encodeComponent_length (proper col mem_cons_self) first
          have rest := ih (fun c member => proper c (mem_cons_of_mem _ member))
            (Nat.succ.inj sameLength) others
          simp only [unusedTotal, declaredTotal, uncountedTotal, List.zipWith_cons_cons,
            List.map_cons, sum_cons, List.length_append] at rest ⊢
          omega

theorem encodeKey_le_iff {key : List Value} (proper : ∀ col ∈ definition, Proper col)
    (encoded : encodeKey key definition policy = .ok bytes) :
    bytes.length ≤ declaredTotal definition % 2 ^ 32 ↔ MadeUp definition key := by
  have length := encodeKey_length proper encoded
  have parts := Nat.div_add_mod (declaredTotal definition) (2 ^ 32)
  rw [MadeUp]
  omega

end Sizes

section Pages

variable {κ : Type} {fmt : KeyFormat κ}

theorem insertRecords_accepts {ε : Type} {bytes : ε → Nat} {encodes : ε → Bool} {tooLarge : String}
    {room : Nat} {entries : List ε} (all : ∀ e ∈ entries, encodes e = true) :
    ∃ b, (insertRecords bytes encodes tooLarge room entries).2 = .ok b := by
  induction entries generalizing room with
  | nil => exact ⟨true, rfl⟩
  | cons e rest ih =>
    rw [insertRecords, all e mem_cons_self, if_neg Bool.true_eq_false_eq_False]
    split
    · exact ⟨false, rfl⟩
    · exact ih fun e member => all e (mem_cons_of_mem _ member)

def Small (fmt : KeyFormat κ) (k : κ) : Prop := fmt.size k ≤ fmt.maxKeyBytes

def FitsAlone (fmt : KeyFormat κ) (k : κ) : Prop :=
  4 + fmt.size k + 4 + 2 + slotSize ≤ nodeCapacityBytes fmt

def keysOf : TreeContent κ → List κ
  | .leaf entries => entries.map LeafEntry.key
  | .internal _ entries => entries.map Prod.fst

variable {highKey : Option κ} {link : Option Nat}

theorem rewritten_accepts {content : TreeContent κ} (keys : ∀ k ∈ keysOf content, Small fmt k)
    (high : ∀ k ∈ highKey, Small fmt k) :
    ∃ b, (rewritten fmt content link highKey).2 = .ok b := by
  have small : (highKey.all fun k => fmt.size k ≤ fmt.maxKeyBytes) = true := by
    cases highKey with
    | none => rfl
    | some k => exact decide_eq_true (high k rfl)
  cases content with
  | leaf entries =>
    rw [rewritten, rewrittenLeaf, if_pos small]
    exact insertRecords_accepts fun e member =>
      decide_eq_true (keys e.key (List.mem_map_of_mem member))
  | internal first entries =>
    rw [rewritten, rewrittenInternal, if_pos small]
    exact insertRecords_accepts fun e member =>
      decide_eq_true (keys e.1 (List.mem_map_of_mem member))

theorem full_rewritten {e : LeafEntry κ} {rest : List (LeafEntry κ)} (small : Small fmt e.key)
    (fits : FitsAlone fmt e.key) (high : ∀ k ∈ highKey, Small fmt k) :
    Full (rewritten fmt (.leaf (e :: rest)) link highKey).1 := by
  have allowed : (highKey.all fun k => fmt.size k ≤ fmt.maxKeyBytes) = true := by
    cases highKey with
    | none => rfl
    | some k => exact decide_eq_true (high k rfl)
  have room : ¬ nodeCapacityBytes fmt < leafEntryBytes fmt e + slotSize := Nat.not_lt.mpr fits
  have within : fmt.size e.key ≤ fmt.maxKeyBytes := small
  have encodes : ¬ decide (fmt.size e.key ≤ fmt.maxKeyBytes) = false := by simpa using within
  rw [rewritten, rewrittenLeaf, if_pos allowed, insertRecords, if_neg encodes, if_neg room]
  exact ⟨_, rfl, List.cons_ne_nil _ _⟩

theorem full_leafAfterInsert {e : LeafEntry κ} {rest : List (LeafEntry κ)} {key : κ}
    {new : Option Nat} (small : ∀ e' ∈ e :: rest, Small fmt e'.key) (fits : FitsAlone fmt e.key)
    (high : ∀ k ∈ highKey, Small fmt k) (two : rest ≠ []) :
    Full (leafAfterInsert fmt (e :: rest) key link highKey new) := by
  have first := small e mem_cons_self
  rw [leafAfterInsert.eq_def]
  split
  · obtain ⟨e', rest', rfl⟩ := List.exists_cons_of_ne_nil two
    have half : (e :: e' :: rest').length / 2 = rest'.length / 2 + 1 := by
      rw [length_cons, length_cons]
      omega
    have inside : rest'.length / 2 + 1 < (e :: e' :: rest').length := by
      rw [length_cons, length_cons]
      omega
    simp only [halves, half, List.take_succ_cons, List.getElem?_eq_getElem inside, Option.map_some,
      Option.getD_some]
    refine full_rewritten first fits ?_
    intro k separator
    cases separator
    exact small _ (List.getElem_mem inside)
  · exact full_rewritten first fits high

end Pages

section Index

variable (policy : NullPolicy) (definition : List IndexKeyColumnDefinition)

/-- The pages of an index with this definition that holds only keys of a set. Where
`CompareEncoded` throws, the order says nothing. -/
def codecFormat (keys : Set Bytes) (max : Nat)
    (room : specialDataSize + max ≤ pageSize - headerSize) : KeyFormat keys where
  compare a b :=
    match compareEncoded a.1 b.1 definition policy with
    | .ok o => o
    | .error _ => .eq
  size k := k.1.length
  maxKeyBytes := max
  special_fits := room

def Accepted (k : Bytes) : Prop := ∃ values, encodeKey values definition policy = .ok k

def PageFits (max length : Nat) : Prop :=
  4 + length + 4 + 2 + slotSize ≤ pageSize - headerSize - (specialDataSize + max)

/-- A key that a leaf may hold, and that can be compared with a new one. -/
structure Stands (max : Nat) (key k : Bytes) : Prop where
  accepted : Accepted policy definition k
  small : k.length ≤ max
  fits : PageFits max k.length
  compares : ∃ o, compareEncoded k key definition policy = .ok o

def LeavesStand {keys : Set Bytes} (max : Nat) (key : Bytes) (file : IndexFile keys) : Prop :=
  ∀ p node entries, file.pages p = some node → node.content = .leaf entries →
    (∀ e ∈ entries, Stands policy definition max key e.key.1) ∧
      ∀ k ∈ node.highKey, k.1.length ≤ max

/-- Whatever a leaf with entries holds, it holds some entry after the step of an insert at it. -/
def SparesLeaf (keys : Set Bytes) (max : Nat) (room : specialDataSize + max ≤ pageSize - headerSize)
    (key : keys) : Prop :=
  ∀ (old all : List (LeafEntry keys)) rid link highKey new, old ≠ [] →
    (∀ e ∈ old, Stands policy definition max key.1 e.key.1) → (∀ k ∈ highKey, k.1.length ≤ max) →
      all.Perm (old ++ [⟨key, rid⟩]) → all.Pairwise (fun a b =>
        leafEntryLess (codecFormat policy definition keys max room) b a = false) →
          Full (leafAfterInsert (codecFormat policy definition keys max room) all key link highKey new)

/-- The key is as small as the index expects; what a page initializes lies on it; the rewrites do
not throw; a leaf with entries keeps some, in the step at the leaf and over every run of
`InsertEntry`. -/
structure SparesNodes (key : Bytes) : Prop where
  bounded : ∃ max, getMaxEncodedKeySize definition = .ok max ∧ key.length ≤ max
  inside : ∀ max, getMaxEncodedKeySize definition = .ok max →
    (specialDataSize + max) % 2 ^ 16 ≤ pageSize - headerSize →
      specialDataSize + max ≤ pageSize - headerSize
  rewrites : ∀ (keys : Set Bytes) max room, getMaxEncodedKeySize definition = .ok max →
    ∀ (content : TreeContent keys) link highKey,
      (∀ k ∈ keysOf content, k.1 = key ∨ k.1.length ≤ max) →
        (∀ k ∈ highKey, k.1 = key ∨ k.1.length ≤ max) →
          ∃ b, (rewritten (codecFormat policy definition keys max room) content link highKey).2 =
            .ok b
  leaf : ∀ (keys : Set Bytes) max room, getMaxEncodedKeySize definition = .ok max →
    ∀ inKeys : key ∈ keys,
    SparesLeaf policy definition keys max room ⟨key, inKeys⟩
  insert : ∀ (keys : Set Bytes) max room, getMaxEncodedKeySize definition = .ok max →
    ∀ (inKeys : key ∈ keys)
    (sorts : Sorting (codecFormat policy definition keys max room)) rid fuel file,
      LeavesStand policy definition max key file →
        Task.Keeps (filing keys) (GenericBTree.insertEntry sorts ⟨key, inKeys⟩ rid fuel) file
          fun _ file' => Kept file file'

/-- The size of the special area is kept in 16 bits; what is cleared is its whole size. -/
def SpecialInside : Prop :=
  (specialDataSize + declaredTotal definition % 2 ^ 32) % 2 ^ 16 ≤ pageSize - headerSize →
    specialDataSize + declaredTotal definition % 2 ^ 32 ≤ pageSize - headerSize

/-- A page has room for the key, or every key a leaf may hold comes before it. -/
def PageHasRoom (max : Nat) (key : Bytes) : Prop :=
  PageFits max key.length ∨
    ∀ k, Stands policy definition max key k → compareEncoded k key definition policy = .ok .lt

variable {policy definition} {keys : Set Bytes} {max : Nat}
  {room : specialDataSize + max ≤ pageSize - headerSize} {key : keys}

theorem codecFormat_compare {a b : keys} {o : Ordering}
    (compared : compareEncoded a.1 b.1 definition policy = .ok o) :
    (codecFormat policy definition keys max room).compare a b = o := by
  show (match compareEncoded a.1 b.1 definition policy with | .ok o => o | .error _ => .eq) = o
  rw [compared]

theorem first_fits {rid : RID} {old rest : List (LeafEntry keys)} {e : LeafEntry keys}
    (hasRoom : PageHasRoom policy definition max key.1) (nonempty : old ≠ [])
    (stand : ∀ e ∈ old, Stands policy definition max key.1 e.key.1)
    (perm : (e :: rest).Perm (old ++ [⟨key, rid⟩]))
    (sorted : (e :: rest).Pairwise fun a b =>
      leafEntryLess (codecFormat policy definition keys max room) b a = false) :
    PageFits max e.key.1.length := by
  rcases List.mem_append.mp (perm.subset mem_cons_self) with before | new
  · exact (stand e before).fits
  · obtain rfl := mem_singleton.mp new
    rcases hasRoom with fits | behind
    · exact fits
    · obtain ⟨other, member⟩ := List.exists_mem_of_ne_nil old nonempty
      have inAll := perm.symm.subset (List.mem_append_left [⟨key, rid⟩] member)
      rcases List.mem_cons.mp inAll with rfl | later
      · exact (stand _ member).fits
      · have less : (codecFormat policy definition keys max room).compare other.key key = .lt :=
          codecFormat_compare (behind _ (stand other member))
        have ordered := (List.pairwise_cons.mp sorted).1 other later
        rw [leafEntryLess, less] at ordered
        cases ordered

theorem sparesLeaf (small : key.1.length ≤ max) (hasRoom : PageHasRoom policy definition max key.1) :
    SparesLeaf policy definition keys max room key := by
  intro old all rid link highKey new nonempty stand high perm sorted
  have length := perm.length_eq
  rw [List.length_append, List.length_singleton] at length
  have some := List.length_pos_of_ne_nil nonempty
  cases all with
  | nil => simp at length
  | cons e rest =>
    have first := first_fits hasRoom nonempty stand perm sorted
    refine full_leafAfterInsert ?_ first high ?_
    · intro e' member
      rcases List.mem_append.mp (perm.subset member) with before | isNew
      · exact (stand e' before).small
      · rw [mem_singleton.mp isNew]
        exact small
    · rintro rfl
      rw [List.length_singleton] at length
      omega

theorem not_sparesLeaf (room : specialDataSize + max ≤ pageSize - headerSize) (key k : keys)
    {o : Ordering} (small : key.1.length ≤ max)
    (tooLarge : ¬ PageFits max key.1.length) (stands : Stands policy definition max key.1 k.1)
    (compared : compareEncoded k.1 key.1 definition policy = .ok o) (behind : o ≠ .lt) :
    ¬ SparesLeaf policy definition keys max room key := by
  intro spares
  have after := spares [⟨k, ⟨1, 0⟩⟩] [⟨key, ⟨0, 0⟩⟩, ⟨k, ⟨1, 0⟩⟩] ⟨0, 0⟩ none none none
    (List.cons_ne_nil _ _)
    (by
      intro e member
      rw [mem_singleton.mp member]
      exact stands)
    (by
      intro k' member
      cases member)
    (List.Perm.swap _ _ _)
    (by
      rw [List.pairwise_pair, leafEntryLess, codecFormat_compare compared]
      cases o with
      | lt => exact absurd rfl behind
      | eq => rfl
      | gt => rfl)
  have full : nodeCapacityBytes (codecFormat policy definition keys max room) <
      leafEntryBytes (codecFormat policy definition keys max room) ⟨key, ⟨0, 0⟩⟩ + slotSize :=
    Nat.not_le.mp tooLarge
  have within : (codecFormat policy definition keys max room).size key ≤
      (codecFormat policy definition keys max room).maxKeyBytes := small
  rw [leafAfterInsert.eq_def] at after
  simp only [rewritten, rewrittenLeaf, Option.all_none, if_true, insertRecords,
    decide_eq_true within, Bool.true_eq_false, if_false, if_pos full, Prod.map_fst] at after
  obtain ⟨entries, leaf, nonempty⟩ := after
  cases leaf
  exact nonempty rfl

theorem insert_spares (sorts : Sorting (codecFormat policy definition keys max room)) {rid : RID}
    {fuel : Nat} {file : IndexFile keys}
    (spares : SparesLeaf policy definition keys max room key)
    (stand : LeavesStand policy definition max key.1 file) :
    Task.Keeps (filing keys) (GenericBTree.insertEntry sorts key rid fuel) file
      fun _ file' => Kept file file' := by
  refine insertEntry_files sorts ?_
  intro p node entries here isLeaf nonempty new
  obtain ⟨inLeaf, high⟩ := stand p node entries here isLeaf
  have read := sorts.leaf_perm entries
  refine spares (sorts.leaf entries) _ rid node.rightLink node.highKey new ?_ ?_ high
    (sorts.leaf_perm _) (sorts.leaf_sorted _)
  · intro none
    rw [none] at read
    exact nonempty read.symm.eq_nil
  · exact fun e member => inLeaf e (read.subset member)

/-- An accepted key destroys no node exactly if what no declared length counts is made up for, the
special area is initialized within the page, and the key has room where it comes first. -/
theorem sparesNodes_iff (values : List Value) {key : Bytes}
    (proper : ∀ col ∈ definition, Proper col)
    (encoded : encodeKey values definition policy = .ok key) :
    SparesNodes policy definition key ↔ MadeUp definition values ∧ SpecialInside definition ∧
      (specialDataSize + declaredTotal definition % 2 ^ 32 ≤ pageSize - headerSize →
        PageHasRoom policy definition (declaredTotal definition % 2 ^ 32) key) := by
  have maxSize := getMaxEncodedKeySize_eq proper
  have bound := encodeKey_le_iff proper encoded
  constructor
  · intro spares
    have within : key.length ≤ declaredTotal definition % 2 ^ 32 := by
      obtain ⟨max, isMax, within⟩ := spares.bounded
      rw [maxSize] at isMax
      cases isMax
      exact within
    refine ⟨bound.mp within, spares.inside _ maxSize, ?_⟩
    intro room
    by_cases fits : PageFits (declaredTotal definition % 2 ^ 32) key.length
    · exact .inl fits
    · refine .inr ?_
      intro k stands
      obtain ⟨o, compared⟩ := stands.compares
      rw [compared]
      by_contra notBehind
      have emptied := not_sparesLeaf room (⟨key, Set.mem_univ key⟩ : Set.univ)
        ⟨k, Set.mem_univ k⟩ within fits stands compared fun less => notBehind (congrArg _ less)
      exact emptied (spares.leaf Set.univ _ room maxSize (Set.mem_univ key))
  · rintro ⟨madeUp, inside, hasRoom⟩
    have within := bound.mpr madeUp
    refine ⟨⟨_, maxSize, within⟩, ?_, ?_, ?_, ?_⟩
    · intro max isMax
      rw [maxSize] at isMax
      cases isMax
      exact inside
    · intro keys max room isMax content link highKey inContent high
      rw [maxSize] at isMax
      cases isMax
      have small {k : keys} (one : k.1 = key ∨ k.1.length ≤ declaredTotal definition % 2 ^ 32) :
          Small (codecFormat policy definition keys _ room) k := by
        show k.1.length ≤ _
        rcases one with same | small
        · rw [same]
          exact within
        · exact small
      exact rewritten_accepts (fun k member => small (inContent k member))
        fun k member => small (high k member)
    · intro keys max room isMax inKeys
      rw [maxSize] at isMax
      cases isMax
      exact sparesLeaf within (hasRoom room)
    · intro keys max room isMax inKeys sorts rid fuel file stand
      rw [maxSize] at isMax
      cases isMax
      exact insert_spares sorts (sparesLeaf within (hasRoom room)) stand

/-- Key columns (INT32, VARCHAR of declared length 20). -/
def named : List IndexKeyColumnDefinition := [⟨0, .int32, 0, true⟩, ⟨1, .varchar, 20, true⟩]

theorem sparesNodes_named :
    SparesNodes .notSupported named [0, 1, 0, 0, 0, 0, 1, 0, 0, 0, 97] := by
  refine (sparesNodes_iff [.int32 1, .varchar [97]] ?_ (by decide +kernel)).mpr ⟨?_, ?_, ?_⟩
  · intro col member
    simp only [named, List.mem_cons, List.not_mem_nil, or_false] at member
    rcases member with rfl | rfl <;> exact ⟨by decide, by decide⟩
  · unfold MadeUp
    decide
  · unfold SpecialInside
    decide
  · intro _
    refine .inl ?_
    unfold PageFits
    decide

/-- Key columns (INT32, VARCHAR of declared length 0). The key of (1, 'a') is accepted and comes
before the one of (5, ''), which is all its leaf holds. The rewrite throws, and leaves nothing. -/
theorem not_sparesNodes_unlimited :
    encodeKey [.int32 1, .varchar [97]] [⟨0, .int32, 0, true⟩, ⟨1, .varchar, 0, true⟩] .notSupported =
        .ok [0, 1, 0, 0, 0, 0, 1, 0, 0, 0, 97] ∧
      getMaxEncodedKeySize [⟨0, .int32, 0, true⟩, ⟨1, .varchar, 0, true⟩] = .ok 10 ∧
      rewritten (codecFormat .notSupported [⟨0, .int32, 0, true⟩, ⟨1, .varchar, 0, true⟩] Set.univ 10
          (by decide))
        (.leaf [⟨⟨[0, 1, 0, 0, 0, 0, 1, 0, 0, 0, 97], trivial⟩, ⟨1, 0⟩⟩,
          ⟨⟨[0, 5, 0, 0, 0, 0, 0, 0, 0, 0], trivial⟩, ⟨1, 1⟩⟩]) none none =
        (⟨.leaf [], false, none, none, none⟩, .error "Leaf key too large") ∧
      ¬ SparesNodes .notSupported [⟨0, .int32, 0, true⟩, ⟨1, .varchar, 0, true⟩]
        [0, 1, 0, 0, 0, 0, 1, 0, 0, 0, 97] := by
  refine ⟨by decide +kernel, rfl, rfl, ?_⟩
  intro spares
  obtain ⟨max, isMax, within⟩ := spares.bounded
  cases isMax
  exact absurd within (by decide)

end Index

end GraniteDb.Access.KeySizes
