/- The latches of an operation that runs alone, and the trees that inserts lead to. -/

import GraniteDb.Access.TreeShape

namespace GraniteDb.Access.TreeLatches

open Lib.BlinkTree Lib.Task Access.BTreePage Access.GenericBTree Access.TreeShape
open Common.Types (RID)
open Access.PageTasks hiding answers

variable {κ : Type}

section Latches

structure Holding (κ : Type) where
  file : IndexFile κ
  exclusive : List Nat
  shared : List Nat

/-- `std::shared_mutex` gives the latch. A loop that does not end never goes on. -/
def grants (s : Holding κ) : Request κ → Prop
  | .rLatch p => p ∉ s.exclusive
  | .wLatch p => p ∉ s.exclusive ∧ p ∉ s.shared
  | .loop => False
  | .nullPage => False
  | _ => True

def Holding.after (s : Holding κ) : Request κ → Holding κ
  | .rLatch p => { s with shared := p :: s.shared }
  | .rUnlatch p => { s with shared := s.shared.erase p }
  | .wLatch p => { s with exclusive := p :: s.exclusive }
  | .wUnlatch p => { s with exclusive := s.exclusive.erase p }
  | _ => s

/-- An operation that runs alone. It is excused for some of what it asks for and never gets. -/
def latching (excused : Request κ → Prop) : System (Request κ) Reply (Holding κ) where
  permits s r := excused r ∨ grants s r
  answers s r b s' := grants s r ∧
    ∃ file, PageTasks.answers s.file r b file ∧ s' = { s.after r with file := file }

variable {excused : Request κ → Prop} {file : IndexFile κ} {exclusive shared : List Nat} {p : Nat}

instance (s : Holding κ) (r : Request κ) : Decidable (grants s r) :=
  match r with
  | .rLatch p => inferInstanceAs (Decidable (p ∉ s.exclusive))
  | .wLatch p => inferInstanceAs (Decidable (p ∉ s.exclusive ∧ p ∉ s.shared))
  | .loop => inferInstanceAs (Decidable False)
  | .nullPage => inferInstanceAs (Decidable False)
  | .fetchPage _ => inferInstanceAs (Decidable True)
  | .newPage => inferInstanceAs (Decidable True)
  | .unpinPage _ _ => inferInstanceAs (Decidable True)
  | .rUnlatch _ => inferInstanceAs (Decidable True)
  | .wUnlatch _ => inferInstanceAs (Decidable True)
  | .readNode _ => inferInstanceAs (Decidable True)
  | .writeNode _ _ => inferInstanceAs (Decidable True)
  | .readMeta => inferInstanceAs (Decidable True)
  | .writeMeta _ _ => inferInstanceAs (Decidable True)
  | .logPageChange _ => inferInstanceAs (Decidable True)

theorem keeps_request {r : Request κ} {s : Holding κ} {q : Reply r → Holding κ → Prop} :
    Task.Keeps (latching excused) (ask r) s (returning q) ↔ (excused r ∨ grants s r) ∧
      (grants s r → ∀ b file, PageTasks.answers s.file r b file →
        q b { s.after r with file := file }) := by
  rw [keeps_ask]
  refine and_congr_right fun _ => ⟨fun all granted b file answered => ?_, ?_⟩
  · exact all b _ ⟨granted, file, answered, rfl⟩
  · rintro all b s' ⟨granted, file, answered, rfl⟩
    exact all granted b file answered

@[simp] theorem keeps_fetchPage {q : Bool → Holding κ → Prop} :
    Task.Keeps (latching excused) (fetchPage p) ⟨file, exclusive, shared⟩ (returning q) ↔
      (p < file.numPages → q true ⟨file, exclusive, shared⟩) ∧
        q false ⟨file, exclusive, shared⟩ := by
  rw [fetchPage, keeps_request]
  simp [grants, PageTasks.answers, Holding.after, and_comm]

@[simp] theorem keeps_newPage {q : Option Nat → Holding κ → Prop} :
    Task.Keeps (latching excused) newPage ⟨file, exclusive, shared⟩ (returning q) ↔
      q none ⟨file, exclusive, shared⟩ ∧
        q (some file.numPages) ⟨file.allocate, exclusive, shared⟩ := by
  rw [newPage, keeps_request]
  simp [grants, PageTasks.answers, Holding.after, Option.forall]

variable {q : Unit → Holding κ → Prop}

@[simp] theorem keeps_unpinPage {dirty : Bool} :
    Task.Keeps (latching excused) (unpinPage p dirty) ⟨file, exclusive, shared⟩ (returning q) ↔
      q () ⟨file, exclusive, shared⟩ := by
  rw [unpinPage, keeps_request]
  simp [grants, PageTasks.answers, Holding.after, Reply, Unique.forall_iff]

@[simp] theorem keeps_rLatch :
    Task.Keeps (latching excused) (rLatch p) ⟨file, exclusive, shared⟩ (returning q) ↔
      (excused (.rLatch p) ∨ p ∉ exclusive) ∧
      (p ∉ exclusive → q () ⟨file, exclusive, p :: shared⟩) := by
  rw [rLatch, keeps_request]
  simp [grants, PageTasks.answers, Holding.after, Reply, Unique.forall_iff]

@[simp] theorem keeps_rUnlatch :
    Task.Keeps (latching excused) (rUnlatch p) ⟨file, exclusive, shared⟩ (returning q) ↔
      q () ⟨file, exclusive, shared.erase p⟩ := by
  rw [rUnlatch, keeps_request]
  simp [grants, PageTasks.answers, Holding.after, Reply, Unique.forall_iff]

@[simp] theorem keeps_wLatch :
    Task.Keeps (latching excused) (wLatch p) ⟨file, exclusive, shared⟩ (returning q) ↔
      (excused (.wLatch p) ∨ p ∉ exclusive ∧ p ∉ shared) ∧
        (p ∉ exclusive ∧ p ∉ shared → q () ⟨file, p :: exclusive, shared⟩) := by
  rw [wLatch, keeps_request]
  simp [grants, PageTasks.answers, Holding.after, Reply, Unique.forall_iff]

@[simp] theorem keeps_wUnlatch :
    Task.Keeps (latching excused) (wUnlatch p) ⟨file, exclusive, shared⟩ (returning q) ↔
      q () ⟨file, exclusive.erase p, shared⟩ := by
  rw [wUnlatch, keeps_request]
  simp [grants, PageTasks.answers, Holding.after, Reply, Unique.forall_iff]

@[simp] theorem keeps_logPageChange :
    Task.Keeps (latching excused) (logPageChange p) ⟨file, exclusive, shared⟩ (returning q) ↔
      q () ⟨file, exclusive, shared⟩ := by
  rw [logPageChange, keeps_request]
  simp [grants, PageTasks.answers, Holding.after, Reply, Unique.forall_iff]

@[simp] theorem keeps_writeNode {node : TreeNode κ} :
    Task.Keeps (latching excused) (writeNode p node) ⟨file, exclusive, shared⟩ (returning q) ↔
      q () ⟨file.write p node, exclusive, shared⟩ := by
  rw [writeNode, keeps_request]
  simp [grants, PageTasks.answers, Holding.after, Reply, Unique.forall_iff]

@[simp] theorem keeps_loop {α : Type} {s : Holding κ} {q : α → Holding κ → Prop} :
    Task.Keeps (latching excused) loop s (returning q) ↔ excused .loop := by
  have here : Task.Keeps (latching excused) (loop : TreeTask κ α) s (returning q) ↔
      (excused .loop ∨ False) ∧ ∀ b : Empty, _ := Iff.rfl
  rw [here, or_false]
  exact and_iff_left fun never => never.elim

@[simp] theorem keeps_readNode {q : TreeNode κ → Holding κ → Prop} :
    Task.Keeps (latching excused) (readNode p) ⟨file, exclusive, shared⟩ (returning q) ↔
      ∀ node, file.pages p = some node → q node ⟨file, exclusive, shared⟩ := by
  rw [readNode, keeps_bind_task, andThen_returning, keeps_request]
  simp only [grants, PageTasks.answers, Holding.after, or_true, true_and, forall_const, and_imp]
  cases file.pages p with
  | none => simp
  | some node => simp

@[simp] theorem keeps_rewrite {fmt : KeyFormat κ} {content : TreeContent κ} {link : Option Nat}
    {highKey : Option κ} {q : Bool → Holding κ → Prop} :
    Task.Keeps (latching excused) (rewrite fmt p content link highKey) ⟨file, exclusive, shared⟩
        (returning q) ↔
      ∀ b, (rewritten fmt content link highKey).2 = .ok b →
        q b ⟨file.write p (rewritten fmt content link highKey).1, exclusive, shared⟩ := by
  rw [rewrite, keeps_bind_task, andThen_returning, keeps_writeNode, keeps_ofExcept_returning]

@[simp] theorem keeps_readMeta {q : Nat × Nat → Holding κ → Prop} :
    Task.Keeps (latching excused) readMeta ⟨file, exclusive, shared⟩ (returning q) ↔
      q (file.rootPageNo, file.treeHeight) ⟨file, exclusive, shared⟩ := by
  rw [readMeta, keeps_request]
  simp [grants, PageTasks.answers, Holding.after]

@[simp] theorem keeps_writeMeta {rootPageNo treeHeight : Nat} :
    Task.Keeps (latching excused) (writeMeta rootPageNo treeHeight)
        ⟨file, exclusive, shared⟩ (returning q) ↔
      q () ⟨{ file with rootPageNo := rootPageNo, treeHeight := treeHeight }, exclusive,
        shared⟩ := by
  rw [writeMeta, keeps_request]
  simp [grants, PageTasks.answers, Holding.after, Reply, Unique.forall_iff]

theorem readMetaPage_keeps {tree : String} {q : Nat × Nat → Holding κ → Prop}
    (free : 0 ∉ exclusive) (next : q (file.rootPageNo, file.treeHeight) ⟨file, exclusive, []⟩) :
    Task.Keeps (latching excused) (readMetaPage tree) ⟨file, exclusive, []⟩ (returning q) := by
  rw [readMetaPage, keeps_bind_task, andThen_returning, keeps_fetchPage]
  simp [free, next]

theorem writeMetaPage_keeps {tree : String} {rootPageNo treeHeight : Nat} (free : 0 ∉ exclusive)
    (next : q () ⟨{ file with rootPageNo := rootPageNo, treeHeight := treeHeight }, exclusive, []⟩)
    :
    Task.Keeps (latching excused) (writeMetaPage tree rootPageNo treeHeight) ⟨file, exclusive, []⟩
      (returning q) := by
  rw [writeMetaPage, keeps_bind_task, andThen_returning, keeps_fetchPage]
  simp [free, next]

end Latches

section Inserts

variable {fmt : KeyFormat κ} {sorts : Sorting fmt} {excused : Request κ → Prop}
  {file : IndexFile κ} {l : Layout}
  {p : Nat}

variable {key : κ} {fuel : Nat}

theorem rightOf_link {node : TreeNode κ} {right : Nat} (next : rightOf fmt node key = some right) :
    node.rightLink = some right := by
  rw [rightOf] at next
  split at next
  · split at next
    · cases next
    · rename_i link _
      cases next
      exact link
  · cases next

/-- Where moving right for a key from a page ends, if it does within so many pages. -/
def walk (fmt : KeyFormat κ) (pages : Store κ (LeafEntry κ)) (key : κ) : Nat → Nat → Option Nat
  | 0, _ => none
  | rounds + 1, p =>
    match (pages p).bind fun node => rightOf fmt node key with
    | none => some p
    | some right => walk fmt pages key rounds right

theorem walk_mono {pages : Store κ (LeafEntry κ)} {rounds rounds' p' : Nat}
    (ends : walk fmt pages key rounds p = some p') (more : rounds ≤ rounds') :
    walk fmt pages key rounds' p = some p' := by
  induction rounds generalizing p rounds' with
  | zero => cases ends
  | succ rounds ih =>
    obtain ⟨many, rfl⟩ := Nat.exists_eq_add_of_lt (Nat.lt_of_succ_le more)
    rw [walk] at ends ⊢
    split at ends
    · exact ends
    · exact ih ends (Nat.le_add_right rounds many)

theorem walk_above {rounds : Nat} (fits : Fits l file) (above : 1 ≤ l.level p)
    (many : l.behind file.numPages p < rounds) : (walk fmt file.pages key rounds p).isSome := by
  induction rounds generalizing p with
  | zero => omega
  | succ rounds ih =>
    rw [walk]
    split
    · rfl
    · rename_i q next
      obtain ⟨node, here, right⟩ := Option.bind_eq_some_iff.mp next
      obtain ⟨further, level, place⟩ := fits.link p node here q (rightOf_link right)
      have closer := l.behind_lt further.2 (place above)
      exact ih (level ▸ above) (by omega)

theorem moveRight_keeps {failure : String} (fits : Fits l file) (inside : InFile file.numPages p)
    (enough : excused .loop ∨ (walk fmt file.pages key fuel p).isSome) :
    Task.Keeps (latching excused) (moveRight fmt failure key fuel p) ⟨file, [p], []⟩
      (returning fun p' s => s = ⟨file, [p'], []⟩ ∧ InFile file.numPages p' ∧
        l.level p' = l.level p ∧ walk fmt file.pages key fuel p = some p') := by
  induction fuel generalizing p with
  | zero =>
    rw [moveRight, keeps_loop]
    exact enough.resolve_right Bool.false_ne_true
  | succ fuel ih =>
    rw [moveRight]
    simp only [keeps_bind_task, andThen_returning, keeps_readNode]
    intro node here
    rw [walk, here, Option.bind_some] at enough ⊢
    cases next : rightOf fmt node key with
    | none => simp [inside]
    | some right =>
      rw [next] at enough
      obtain ⟨further, level, _⟩ := fits.link p node here right (rightOf_link next)
      have rest := ih further enough
      rw [level] at rest
      simpa using fun _ => rest

structure Grew (l : Layout) (file : IndexFile κ) (l' : Layout) (file' : IndexFile κ) : Prop where
  ext : Extends l file.numPages l' file'.numPages
  fits : Fits l' file'
  written : Written file'
  root : file'.rootPageNo = file.rootPageNo
  height : file'.treeHeight = file.treeHeight

theorem place_between (l : Layout) (p : Nat) (link : Option Nat) :
    ∃ x, l.place p < x ∧ ∀ q, link = some q → l.place p < l.place q → x < l.place q := by
  cases link with
  | none =>
    refine ⟨l.place p + 1, by linarith, fun q same => ?_⟩
    cases same
  | some q =>
    by_cases further : l.place p < l.place q
    · refine ⟨(l.place p + l.place q) / 2, by linarith, fun q' same _ => ?_⟩
      cases same
      linarith
    · refine ⟨l.place p + 1, by linarith, fun q' same further' => ?_⟩
      cases same
      exact absurd further' further

theorem split_fits (fmt : KeyFormat κ) {link : Option Nat} {content left right : TreeContent κ}
    {separator : κ} (highKey : Option κ) (fits : Fits l file) (written : Written file)
    (inside : InFile file.numPages p) (content_fits : ContentFits l file.numPages p content)
    (link_fits : LinkFits l file.numPages p link)
    (parts : halves key content = (left, right, separator)) : ∃ l',
      Grew l file l' ((file.allocate.write p
          (rewritten fmt left (some file.numPages) (some separator)).1).write file.numPages
            (rewritten fmt right link highKey).1) ∧
        l'.level file.numPages = l.level p := by
  obtain ⟨x, above, below⟩ := place_between l p link
  have ext := l.add_extends file.numPages (l.level p) x
  have new : InFile file.allocate.numPages file.numPages :=
    ⟨Nat.le_trans inside.1 inside.2.le, Nat.lt_succ_self _⟩
  have level : (l.add file.numPages (l.level p) x).level file.numPages =
      (l.add file.numPages (l.level p) x).level p := by
    rw [Layout.add_level, ext.level p inside.2]
  have both := (content_fits.extend inside.2 ext).halves key level
  rw [parts] at both
  have before : LinkFits (l.add file.numPages (l.level p) x) file.allocate.numPages p
      (some file.numPages) := by
    intro q same
    cases same
    rw [Layout.add_place, ext.place p inside.2]
    exact ⟨new, level, fun _ => above⟩
  have behind : LinkFits (l.add file.numPages (l.level p) x) file.allocate.numPages
      file.numPages link := by
    intro q same
    obtain ⟨next, levels, places⟩ := link_fits q same
    rw [ext.level q next.2, Layout.add_level, Layout.add_place, ext.place q next.2]
    exact ⟨next.extend ext, levels, fun high => below q same (places high)⟩
  have first := (fits.allocate (l.level p) x).rewrite fmt (some separator) (inside.extend ext)
    both.1 before
  have second := first.rewrite fmt highKey new both.2 behind
  refine ⟨_, ⟨ext, second, ?_, rfl, rfl⟩, Layout.add_level _ _ _ _⟩
  intro q bounded
  by_cases same : q = file.numPages
  · rw [same, write_pages_self]
    exact Option.some_ne_none _
  · rw [write_pages_other _ _ _ same]
    by_cases own : q = p
    · rw [own, write_pages_self]
      exact Option.some_ne_none _
    · rw [write_pages_other _ _ _ own]
      exact written.allocate bounded same

theorem Grew.trans {l' l'' : Layout} {file' file'' : IndexFile κ} (first : Grew l file l' file')
    (second : Grew l' file' l'' file'') : Grew l file l'' file'' :=
  ⟨first.ext.trans second.ext, second.fits, second.written, second.root.trans first.root,
    second.height.trans first.height⟩

def Inserted (l : Layout) (file : IndexFile κ) (p : Nat) (split : Option (κ × Nat))
    (s : Holding κ) : Prop :=
  ∃ l' file', s = ⟨file', [], []⟩ ∧ Grew l file l' file' ∧ ∀ e, split = some e →
    file.numPages ≤ e.2 ∧ InFile file'.numPages e.2 ∧ l'.level e.2 = l.level p

theorem rewriteOrSplit_keeps {what : String} {node : TreeNode κ} {content : TreeContent κ}
    (fits : Fits l file) (written : Written file) (inside : InFile file.numPages p)
    (content_fits : ContentFits l file.numPages p content)
    (link_fits : LinkFits l file.numPages p node.rightLink) :
    Task.Keeps (latching excused) (rewriteOrSplit fmt what p node key content) ⟨file, [p], []⟩
      (returning (Inserted l file p)) := by
  rw [rewriteOrSplit]
  simp only [keeps_bind_task, andThen_returning, keeps_rewrite]
  have once := fits.rewrite fmt node.highKey inside content_fits link_fits
  have all := written.write p (rewritten fmt content node.rightLink node.highKey).1
  intro b ok
  cases b with
  | true =>
    have done : Grew l file l (file.write p (rewritten fmt content node.rightLink
        node.highKey).1) := ⟨Extends.refl l _, once, all, rfl, rfl⟩
    simp only [if_true, keeps_bind_task, andThen_returning, keeps_logPageChange, keeps_wUnlatch,
      keeps_unpinPage, keeps_pure, returning_ok, List.erase_cons_head]
    refine ⟨l, _, rfl, done, fun e none => ?_⟩
    cases none
  | false =>
    have apart : file.numPages ≠ p := (Nat.ne_of_lt inside.2).symm
    cases parts : halves key content with
    | mk left rest =>
      obtain ⟨right, separator⟩ := rest
      obtain ⟨l', grew, level⟩ := split_fits fmt node.highKey once all inside content_fits
        link_fits parts
      simp [apart]
      intro _ _
      refine ⟨l', _, rfl, ⟨grew.ext, grew.fits, grew.written, rfl, rfl⟩, fun e new => ?_⟩
      cases new
      exact ⟨Nat.le_refl _, ⟨Nat.le_trans inside.1 inside.2.le, Nat.lt_succ_self _⟩, level⟩

theorem childForKey_mem (fmt : KeyFormat κ) (key : κ) (leftmostChild : Nat)
    (entries : List (InternalEntry κ)) :
    childForKey fmt key leftmostChild entries ∈ leftmostChild :: entries.map Prod.snd := by
  induction entries generalizing leftmostChild with
  | nil => exact List.mem_singleton_self leftmostChild
  | cons e rest ih =>
    rw [childForKey]
    split
    · exact List.mem_cons_self
    · exact List.mem_cons_of_mem _ (ih e.2)

theorem insertRecursive_keeps {rid : RID} (fits : Fits l file) (written : Written file)
    (inside : InFile file.numPages p) :
    Task.Keeps (latching fun _ => True) (insertRecursive sorts key rid fuel p) ⟨file, [], []⟩
      (returning (Inserted l file p)) := by
  induction fuel generalizing p l file with
  | zero =>
    rw [insertRecursive, keeps_loop]
    trivial
  | succ fuel ih =>
    rw [insertRecursive]
    simp only [keeps_bind_task, andThen_returning, keeps_fetchPage]
    refine ⟨fun _ => ?_, trivial⟩
    simp only [if_true, keeps_bind_task, andThen_returning, keeps_wLatch]
    refine ⟨.inl trivial, fun _ => (moveRight_keeps fits inside (.inl trivial)).mono ?_⟩
    rintro p' s ⟨rfl, inside', level, _⟩
    simp only [keeps_readNode]
    intro node here
    have content := (fits.content p' node here).read sorts
    have link := fits.link p' node here
    cases read : readEntries sorts node.content with
    | leaf entries =>
      rw [read] at content
      have more : ContentFits l file.numPages p'
          (.leaf (sorts.leaf (entries ++ [⟨key, rid⟩]))) := content
      refine (rewriteOrSplit_keeps fits written inside' more link).mono ?_
      rintro split s ⟨l', file', rfl, grew, new⟩
      rw [level] at new
      exact ⟨l', file', rfl, grew, new⟩
    | internal leftmostChild entries =>
      rw [read] at content
      have child := content.2 _ (childForKey_mem fmt key _ entries)
      simp only [keeps_bind_task, andThen_returning, keeps_wUnlatch, List.erase_cons_head]
      refine (ih fits written child.1).mono ?_
      rintro split s ⟨l', file', rfl, grew, new⟩
      simp only [keeps_wLatch]
      refine ⟨.inl trivial, fun _ => ?_⟩
      cases split with
      | none =>
        simp
        refine ⟨l', file', rfl, grew, fun e same => ?_⟩
        cases same
      | some e =>
        obtain ⟨separator, right⟩ := e
        obtain ⟨fresh, member, level'⟩ := new _ rfl
        have outside : right ∉ leftmostChild :: entries.map Prod.snd := by
          intro old
          have small := (content.2 right old).1.2
          dsimp only at fresh
          omega
        have up : l'.level right + 1 = l'.level p' := by
          rw [level', grew.ext.level p' inside'.2]
          exact child.2
        have more := ((content.extend inside'.2 grew.ext).append separator member up
          outside).perm (sorts.internal_perm _)
        refine (rewriteOrSplit_keeps grew.fits grew.written (inside'.extend grew.ext) more
          (link.extend inside'.2 grew.ext)).mono ?_
        rintro split s ⟨l'', file'', rfl, grew', new'⟩
        refine ⟨l'', file'', rfl, grew.trans grew', fun e same => ?_⟩
        obtain ⟨later, inFile, same_level⟩ := new' e same
        rw [same_level, grew.ext.level p' inside'.2, level]
        exact ⟨Nat.le_trans grew.ext.grown later, inFile, rfl⟩

theorem insertEntry_keeps {rid : RID} (fits : Fits l file) (written : Written file) :
    Task.Keeps (latching fun _ => True) (insertEntry sorts key rid fuel) ⟨file, [], []⟩
      (returning fun _ s => ∃ l' file', s = ⟨file', [], []⟩ ∧ Fits l' file' ∧ Written file') := by
  rw [insertEntry, keeps_bind_task, andThen_returning]
  refine readMetaPage_keeps List.not_mem_nil ?_
  simp only [keeps_bind_task, andThen_returning]
  refine (insertRecursive_keeps fits written fits.root).mono ?_
  rintro split s ⟨l', file', rfl, grew, new⟩
  cases split with
  | none => exact ⟨l', file', rfl, grew.fits, grew.written⟩
  | some e =>
    obtain ⟨separator, right⟩ := e
    obtain ⟨fresh, member, level⟩ := new _ rfl
    have root : l'.level file.rootPageNo = l.level file.rootPageNo :=
      grew.ext.level _ fits.root.2
    have old : InFile file'.numPages file.rootPageNo := fits.root.extend grew.ext
    have apart : file.rootPageNo ≠ right := by
      have small := fits.root.2
      dsimp only at fresh
      omega
    have ext := l'.add_extends file'.numPages (l.level file.rootPageNo + 1) 0
    have top : InFile (file'.numPages + 1) file'.numPages :=
      ⟨Nat.le_trans old.1 old.2.le, Nat.lt_succ_self _⟩
    have children : ContentFits (l'.add file'.numPages (l.level file.rootPageNo + 1) 0)
        (file'.numPages + 1) file'.numPages
        (.internal file.rootPageNo [(separator, right)] : TreeContent κ) := by
      refine ⟨by simp [apart], fun c inside => ?_⟩
      obtain rfl | rfl : c = file.rootPageNo ∨ c = right := by simpa using inside
      · rw [ext.level _ old.2, root, Layout.add_level]
        exact ⟨old.extend ext, rfl⟩
      · rw [ext.level _ member.2, level, Layout.add_level]
        exact ⟨member.extend ext, rfl⟩
    have height : (l'.add file'.numPages (l.level file.rootPageNo + 1) 0).level
        file'.numPages + 1 = file.treeHeight + 1 := by
      rw [Layout.add_level, fits.height]
    have written := (grew.fits.allocate (l.level file.rootPageNo + 1) 0).rewrite fmt none top
      children linkFits_none
    simp
    intro _
    refine writeMetaPage_keeps List.not_mem_nil ⟨_, _, rfl,
      written.reroot _ _ top height, fun q inside => ?_⟩
    by_cases same : q = file'.numPages
    · rw [same]
      exact ne_of_eq_of_ne (write_pages_self _ _ _) (Option.some_ne_none _)
    · exact ne_of_eq_of_ne (write_pages_other _ _ _ same) (grew.written.allocate inside same)

end Inserts

end GraniteDb.Access.TreeLatches
