/- Recovery interrupted and run again, any number of times, against one whole run. -/

import GraniteDb.Buffer.WriteAhead
import GraniteDb.Recovery.Compensations
import Mathlib.Logic.Relation

namespace GraniteDb.Recovery.RecoveryRestart

open Common.Types Recovery.WalRecords Recovery.RecordLog Recovery.RecoveryManager
open Recovery.RecoveryFacts Recovery.LogHistory Recovery.UndoPass Recovery.Compensations Buffer
open Buffer.BufferPoolManager (DirtyPageTable markDirty)
open List (foldl_cons mem_cons_self prefix_refl mem_cons mem_cons_of_mem)

variable {β : Type}

/-- What a crash leaves: the surviving log and the pages on disk. -/
structure Crash (β : Type) where
  log : List (Rec β)
  disk : PageId → Page β

def undoStart (master : Nat) (s : Crash β) : UndoState β where
  log := s.log
  txns := (analysis master s.log).txns
  pages := redo (analysis master s.log).dirtyPages s.log s.disk
  queue := losers (analysis master s.log).txns

/-- A version of page `p` that is in memory at some point of `Recover`: after some records of
`Redo`, or after some rounds of `Undo`. -/
def Seen (master : Nat) (s : Crash β) (p : PageId) (version : Page β) : Prop :=
  (∃ n, version = redo (analysis master s.log).dirtyPages (s.log.take n) s.disk p) ∨
  ∃ rounds, version = (undoLoop s.log rounds (undoStart master s)).state.pages p

/-- `Recover` has been interrupted: some of the records it appends are durable, and each page
is as it was or has been flushed under the write-ahead rule. -/
structure Interrupted (master : Nat) (s s' : Crash β) : Prop where
  kept : s.log <+: s'.log
  appended : s'.log <+: (recover master s.log s.disk).state.log
  pages : ∀ p, s'.disk p = s.disk p ∨
    Seen master s p (s'.disk p) ∧ (s'.disk p).lsn < endLsn s'.log

/-- A master record that `EnsureWalInitializedAndTrimmed` keeps. -/
def MasterValid (master : Nat) (log : List (Rec β)) : Prop :=
  master = 0 ∨ ∃ rec ∈ log, rec.type = .beginCheckpoint ∧ rec.lsn = master

/-- However often `Recover` is interrupted, it ends in the pages of one whole run. -/
def Restartable (master : Nat) (s : Crash β) : Prop :=
  ∀ s', Relation.ReflTransGen (Interrupted master) s s' → ∃ whole last,
    recover master s.log s.disk = .done whole ∧ recover master s'.log s'.disk = .done last ∧
      ∀ p, (last.pages p).body = (whole.pages p).body

/-- `rec` is the newest update of `p` among `records`. -/
def Newest (p : PageId) (records : List (Rec β)) (rec : Rec β) : Prop :=
  ∃ before after, records = before ++ rec :: after ∧ IsUpdateOf p rec ∧
    ∀ x ∈ after, ¬IsUpdateOf p x

/-- No page on disk is as new as the last compensation it is going to get, unless it already
has the bytes of it. -/
def Behind (master : Nat) (s : Crash β) : Prop :=
  ∀ p c, Newest p (compensations master s.log) c →
    (s.disk p).lsn < c.lsn ∨ c.afterImage = some (s.disk p).body

section Redo

def redoPageStep (p : PageId) (low : Nat) (page : Page β) (rec : Rec β) : Page β :=
  if isPageUpdateRecord rec.type && rec.hasPage && rec.pageId == p && !(rec.lsn < low) &&
      page.lsn < rec.lsn then
    (rec.afterImage.map fun body => ⟨rec.lsn, body⟩).getD page
  else page

def redoPage (p : PageId) (recLsn : Option Nat) (records : List (Rec β)) (page : Page β) :
    Page β :=
  match recLsn with
  | some low => records.foldl (redoPageStep p low) page
  | none => page

theorem redoPageStep_cases (p : PageId) (low : Nat) (page : Page β) (rec : Rec β) :
    (∃ body, IsUpdateOf p rec ∧ rec.afterImage = some body ∧ low ≤ rec.lsn ∧
      page.lsn < rec.lsn ∧ redoPageStep p low page rec = ⟨rec.lsn, body⟩) ∨
    ((IsUpdateOf p rec → low ≤ rec.lsn → rec.lsn ≤ page.lsn) ∧
      redoPageStep p low page rec = page) := by
  unfold redoPageStep
  cases image : rec.afterImage with
  | none =>
    refine .inr ⟨fun update => ?_, by simp⟩
    have some_ := update.image
    rw [image] at some_
    cases some_
  | some body =>
    split
    · rename_i shape
      simp only [Bool.and_eq_true, Bool.not_eq_true', decide_eq_true_eq, beq_iff_eq,
        decide_eq_false_iff_not, Nat.not_lt] at shape
      obtain ⟨⟨⟨⟨update, hasPage⟩, page_⟩, covered⟩, newer⟩ := shape
      exact .inl ⟨body, ⟨update, hasPage, page_, by rw [image]; rfl⟩, rfl, covered, newer, rfl⟩
    · rename_i shape
      refine .inr ⟨fun update covered => ?_, rfl⟩
      by_contra newer
      refine shape ?_
      simp [update.update, update.hasPage, update.page, covered, Nat.not_le.mp newer]

variable {p : PageId}

theorem redoPageStep_eq {start low : Nat} {dirtyPages : DirtyPageTable} {pages : PageId → Page β}
    {rec : Rec β} (found : dirtyPages.lookup p = some low) (early : start ≤ low) :
    redoStep start dirtyPages pages rec p = redoPageStep p low (pages p) rec := by
  by_cases update : IsUpdateOf p rec
  · obtain ⟨body, image⟩ := Option.isSome_iff_exists.mp update.image
    have page := update.page
    subst page
    unfold redoStep redoPageStep shouldRedoRecord
    by_cases covered : rec.lsn < low
    · simp [found, covered]
    · have reached : ¬rec.lsn < start := by omega
      by_cases newer : (pages rec.pageId).lsn < rec.lsn
      · simp [reached, update.update, update.hasPage, image, found, covered, newer, applyImage]
      · simp [reached, update.update, update.hasPage, image, found, covered, newer]
  · rw [redoStep_other update]
    rcases redoPageStep_cases p low (pages p) rec with ⟨body, isUpdate, _⟩ | ⟨_, eq⟩
    · exact absurd isUpdate update
    · exact eq.symm

theorem redoStep_uncovered {start : Nat} {dirtyPages : DirtyPageTable} {pages : PageId → Page β}
    {rec : Rec β} (absent : dirtyPages.lookup p = none) :
    redoStep start dirtyPages pages rec p = pages p := by
  by_cases update : IsUpdateOf p rec
  · have page := update.page
    subst page
    simp [redoStep, shouldRedoRecord, absent]
  · exact redoStep_other update

theorem redo_eq_redoPage (dirtyPages : DirtyPageTable) (records : List (Rec β))
    (pages : PageId → Page β) (p : PageId) :
    redo dirtyPages records pages p = redoPage p (dirtyPages.lookup p) records (pages p) := by
  unfold redo
  by_cases empty : dirtyPages.entries = []
  · rw [if_pos empty]
    cases found : dirtyPages.lookup p with
    | none => rfl
    | some low =>
      have member := AList.mem_lookup_iff.mp found
      rw [empty] at member
      cases member
  · rw [if_neg empty]
    cases found : dirtyPages.lookup p with
    | none =>
      show _ = pages p
      induction records generalizing pages with
      | nil => rfl
      | cons rec rest ih => rw [foldl_cons, ih, redoStep_uncovered found]
    | some low =>
      show _ = records.foldl (redoPageStep p low) (pages p)
      induction records generalizing pages with
      | nil => rfl
      | cons rec rest ih =>
        rw [foldl_cons, ih, redoPageStep_eq found (redoStart_le found), foldl_cons]

theorem redoPage_append (p : PageId) (recLsn : Option Nat) (first second : List (Rec β))
    (page : Page β) : redoPage p recLsn (first ++ second) page =
      redoPage p recLsn second (redoPage p recLsn first page) := by
  unfold redoPage
  split
  · rw [List.foldl_append]
  · rfl

theorem redoPage_ahead {recLsn : Option Nat} {records : List (Rec β)} {page : Page β}
    (ahead : ∀ rec ∈ records, IsUpdateOf p rec → recLsn ≤ some rec.lsn → rec.lsn ≤ page.lsn) :
    redoPage p recLsn records page = page := by
  unfold redoPage
  split
  · rename_i low
    induction records with
    | nil => rfl
    | cons rec rest ih =>
      rw [foldl_cons]
      rcases redoPageStep_cases p low page rec with ⟨_, update, _, covered, newer, _⟩ | ⟨_, eq⟩
      · have old := ahead rec mem_cons_self update (by simpa using covered)
        omega
      · rw [eq]
        exact ih fun r member => ahead r (mem_cons_of_mem _ member)
  · rfl

theorem le_redoPage {low : Nat} (records : List (Rec β)) (page : Page β) :
    page.lsn ≤ (redoPage p (some low) records page).lsn ∧ ∀ rec ∈ records, IsUpdateOf p rec →
      low ≤ rec.lsn → rec.lsn ≤ (redoPage p (some low) records page).lsn := by
  induction records generalizing page with
  | nil => exact ⟨le_rfl, by simp⟩
  | cons rec rest ih =>
    obtain ⟨grows, all⟩ := ih (redoPageStep p low page rec)
    rw [show redoPage p (some low) (rec :: rest) page =
      redoPage p (some low) rest (redoPageStep p low page rec) from rfl]
    rcases redoPageStep_cases p low page rec with ⟨body, _, _, _, newer, eq⟩ | ⟨old, eq⟩
    · rw [eq] at grows all ⊢
      refine ⟨le_trans (le_of_lt newer) grows, fun r member update covered => ?_⟩
      rcases mem_cons.mp member with rfl | later
      · exact grows
      · exact all r later update covered
    · rw [eq] at grows all ⊢
      refine ⟨grows, fun r member update covered => ?_⟩
      rcases mem_cons.mp member with rfl | later
      · exact le_trans (old update covered) grows
      · exact all r later update covered

theorem redoPage_again (p : PageId) (recLsn : Option Nat) (records : List (Rec β)) (n : Nat)
    (page : Page β) :
    redoPage p recLsn records (redoPage p recLsn (records.take n) page) =
      redoPage p recLsn records page := by
  conv_lhs => rw [← List.take_append_drop n records]
  conv_rhs => rw [← List.take_append_drop n records]
  rw [redoPage_append, redoPage_append]
  congr 1
  rw [List.take_append_drop]
  cases recLsn with
  | none => rfl
  | some low =>
    refine redoPage_ahead fun rec member update covered => ?_
    exact (le_redoPage _ page).2 rec member update (by simpa using covered)

theorem redoPage_cases (p : PageId) (recLsn : Option Nat) (records : List (Rec β))
    (page : Page β) : redoPage p recLsn records page = page ∨
      ∃ rec ∈ records, IsUpdateOf p rec ∧ (redoPage p recLsn records page).lsn = rec.lsn := by
  unfold redoPage
  split
  · rename_i low
    induction records generalizing page with
    | nil => exact .inl rfl
    | cons rec rest ih =>
      rw [foldl_cons]
      rcases ih (redoPageStep p low page rec) with same | ⟨r, member, update, lsn⟩
      · rcases redoPageStep_cases p low page rec with ⟨body, update, _, _, _, eq⟩ | ⟨_, eq⟩
        · exact .inr ⟨rec, mem_cons_self, update, by rw [same, eq]⟩
        · exact .inl (by rw [same, eq])
      · exact .inr ⟨r, mem_cons_of_mem _ member, update, lsn⟩
  · exact .inl rfl

end Redo

section Run

variable {master : Nat} {s s' : Crash β}

theorem recover_done (master : Nat) {s : Crash β} (chained : Chained s.log) : ∃ whole,
    recover master s.log s.disk = .done whole ∧
    whole.log = s.log ++ compensations master s.log ∧
    whole.pages = replay (redo (analysis master s.log).dirtyPages s.log s.disk)
      (compensations master s.log) := by
  obtain ⟨whole, done, log⟩ := undo_done chained master
    (redo (analysis master s.log).dirtyPages s.log s.disk)
  have logs : whole.log = s.log ++ compensations master s.log := log.trans (undoPass_log master _)
  refine ⟨whole, done, logs, ?_⟩
  have start : Replayed s.log (redo (analysis master s.log).dirtyPages s.log s.disk)
      (undoStart master s) := ⟨[], by rw [List.append_nil]; rfl, rfl⟩
  obtain ⟨added, eq, pages⟩ := start.undoLoop s.log
    ((losers (analysis master s.log).txns).length * (s.log.length + 1))
  rw [show undoLoop s.log _ (undoStart master s) = .done whole from done] at eq pages
  rw [show added = compensations master s.log from List.append_cancel_left (eq.symm.trans logs)]
    at pages
  exact pages

theorem compensations_lsn (chained : Chained s.log) {c : Rec β}
    (member : c ∈ compensations master s.log) : endLsn s.log ≤ c.lsn := by
  have whole := undoPass_chained chained master
  rw [undoPass_log] at whole
  obtain ⟨before, after, split⟩ := List.append_of_mem member
  rw [split, ← List.append_assoc] at whole
  have at_end := whole.placed (s.log ++ before) after c rfl
  rw [endLsn_append] at at_end
  omega

theorem undoLoop_prefix (all : List (Rec β)) (rounds : Nat) {more : Nat} (le : rounds ≤ more)
    (u : UndoState β) : (undoLoop all rounds u).state.log <+: (undoLoop all more u).state.log := by
  induction rounds generalizing more u with
  | zero =>
    obtain ⟨added, eq, _⟩ := undoLoop_log all more u
    have here : (undoLoop all 0 u).state.log = u.log := by
      unfold undoLoop
      split <;> rfl
    rw [here, eq]
    exact List.prefix_append _ _
  | succ rounds ih =>
    obtain ⟨more, rfl⟩ : ∃ n, more = n + 1 := ⟨more - 1, by omega⟩
    unfold undoLoop
    split
    · exact prefix_refl _
    · split
      · exact prefix_refl _
      · exact ih (by omega) _

theorem Seen.cases (chained : Chained s.log) {p : PageId} {version : Page β}
    (seen : Seen master s p version) :
    (∃ n, version = redoPage p ((analysis master s.log).dirtyPages.lookup p) (s.log.take n)
      (s.disk p)) ∨
    ∃ added, added <+: compensations master s.log ∧ version =
      replay (redo (analysis master s.log).dirtyPages s.log s.disk) added p := by
  rcases seen with ⟨n, eq⟩ | ⟨rounds, eq⟩
  · exact .inl ⟨n, by rw [eq, redo_eq_redoPage]⟩
  · have start : Replayed s.log (redo (analysis master s.log).dirtyPages s.log s.disk)
        (undoStart master s) := ⟨[], by rw [List.append_nil]; rfl, rfl⟩
    obtain ⟨added, log, pages⟩ := start.undoLoop s.log rounds
    obtain ⟨whole, done, logWhole⟩ := undoLoop_start chained master
      (redo (analysis master s.log).dirtyPages s.log s.disk)
      (le_max_right rounds s.log.length)
    have onTheWay := undoLoop_prefix s.log rounds (le_max_left rounds s.log.length)
      (undoStart master s)
    rw [show undoLoop s.log (max rounds s.log.length) (undoStart master s) = .done whole from done,
      log, show (Outcome.done whole).state.log = s.log ++ compensations master s.log from
        logWhole.trans (undoPass_log master _), List.prefix_append_right_inj] at onTheWay
    exact .inr ⟨added, onTheWay, by rw [eq, pages]⟩

theorem lookup_analysis_append (chained : Chained s.log) (beyond : master ≤ endLsn s.log)
    {done : List (Rec β)} (isPrefix : done <+: compensations master s.log) {p : PageId}
    (untouched : ∀ c ∈ done, ¬IsUpdateOf p c) :
    (analysis master (s.log ++ done)).dirtyPages.lookup p =
      (analysis master s.log).dirtyPages.lookup p := by
  have emitted : ∀ c ∈ done, c ∈ compensations master s.log :=
    fun c member => isPrefix.subset member
  have kept : scanned master done = done := by
    refine List.filter_eq_self.mpr fun c member => ?_
    have bound := compensations_lsn chained (emitted c member)
    simp only [Bool.not_eq_true', Bool.and_eq_false_iff, decide_eq_false_iff_not, Nat.not_lt]
    exact .inr (le_trans beyond bound)
  unfold analysis
  rw [scanned_append, kept, List.foldl_append]
  clear isPrefix kept
  generalize (scanned master s.log).foldl analysisStep ⟨∅, ∅⟩ = tables
  induction done generalizing tables with
  | nil => rfl
  | cons c rest ih =>
    rw [foldl_cons, ih (fun x member => untouched x (mem_cons_of_mem _ member))
      (fun x member => emitted x (mem_cons_of_mem _ member))]
    rcases (emitted_compensations (emitted c mem_cons_self)).2 with isAbort |
        ⟨rec, member, compensates⟩
    · simp only [analysisStep, isAbort]
    · have shape := Bool.and_eq_true_iff.mp compensates.undoes
      obtain ⟨before, after, split⟩ := List.append_of_mem member
      have image : rec.beforeImage.isSome = true :=
        (chained.links before rec after split).image shape.1
      have apart : p ≠ c.pageId := fun same => untouched c mem_cons_self
        ⟨by simp [isPageUpdateRecord, compensates.isClr], compensates.hasPage, same.symm,
          by rw [compensates.image]; exact image⟩
      have other : (markDirty tables.dirtyPages c.pageId c.lsn).lookup p =
          tables.dirtyPages.lookup p := by
        unfold markDirty
        split <;> rw [AList.lookup_insert_ne apart]
      simp only [analysisStep, compensates.isClr, compensates.hasPage, if_true]
      exact other

end Run

section Step

variable {master : Nat} {s s' : Crash β}

theorem newest_or_untouched (p : PageId) (records : List (Rec β)) :
    (∃ c, Newest p records c) ∨ ∀ x ∈ records, ¬IsUpdateOf p x := by
  by_cases touched : ∃ r ∈ records, IsUpdateOf p r
  · obtain ⟨before, newest, after, split, update, last⟩ := exists_newest touched
    exact .inl ⟨newest, before, after, split, update, last⟩
  · exact .inr fun x member update => touched ⟨x, member, update⟩

variable {records done : List (Rec β)} {c : Rec β} {p : PageId}

section

variable (newest : Newest p records c)

include newest

theorem Newest.replay {body : β} (image : c.afterImage = some body)
    (pages : PageId → Page β) :
    replay pages records p = ⟨c.lsn, body⟩ := by
  obtain ⟨before, after, split, update, last⟩ := newest
  rw [split]
  exact replay_newest update image last pages

theorem Newest.mem : c ∈ records := by
  obtain ⟨before, after, split, _⟩ := newest
  rw [split]
  exact List.mem_append_right _ mem_cons_self

theorem Newest.body : ∃ body, c.afterImage = some body := by
  obtain ⟨_, _, _, update, _⟩ := newest
  exact Option.isSome_iff_exists.mp update.image

theorem Newest.append_left (first : List (Rec β)) :
    Newest p (first ++ records) c := by
  obtain ⟨before, after, split, update, last⟩ := newest
  exact ⟨first ++ before, after, by rw [split, List.append_assoc], update, last⟩

theorem Newest.append_right {second : List (Rec β)}
    (untouched : ∀ x ∈ second, ¬IsUpdateOf p x) : Newest p (records ++ second) c := by
  obtain ⟨before, after, split, update, last⟩ := newest
  refine ⟨before, after ++ second, by rw [split, List.append_assoc, List.cons_append], update,
    fun x member => ?_⟩
  rcases List.mem_append.mp member with early | late
  · exact last x early
  · exact untouched x late

theorem Newest.le {r : Rec β}
    (sorted : records.Pairwise fun a b => a.lsn < b.lsn) (member : r ∈ records)
    (update : IsUpdateOf p r) : r.lsn ≤ c.lsn := by
  obtain ⟨before, after, split, _, last⟩ := newest
  rw [split] at member sorted
  rcases List.mem_append.mp member with early | late
  · exact le_of_lt ((List.pairwise_append.mp sorted).2.2 r early c mem_cons_self)
  · rcases mem_cons.mp late with rfl | later
    · exact le_rfl
    · exact absurd update (last r later)

end

structure Left (master : Nat) (s s' : Crash β) (done : List (Rec β)) : Prop where
  log : s'.log = s.log ++ done
  split : compensations master s.log = done ++ compensations master s'.log
  chained : Chained s'.log
  beyond : master ≤ endLsn s'.log

theorem Interrupted.left (chained : Chained s.log) (beyond : master ≤ endLsn s.log)
    (interrupted : Interrupted master s s') : ∃ done, Left master s s' done := by
  obtain ⟨whole, recovered, logs, _⟩ := recover_done master chained
  obtain ⟨done, log⟩ := interrupted.kept
  have isPrefix : done <+: compensations master s.log := by
    have appended := interrupted.appended
    rw [recovered, ← log] at appended
    rw [show (Outcome.done whole).state.log = s.log ++ compensations master s.log from logs,
      List.prefix_append_right_inj] at appended
    exact appended
  obtain ⟨split, chainedAll⟩ := compensations_of_prefix chained beyond isPrefix
  refine ⟨done, log.symm, by rw [← log]; exact split, by rw [← log]; exact chainedAll, ?_⟩
  rw [← log, endLsn_append]
  omega

theorem Left.mem_done (left : Left master s s' done) (member : c ∈ compensations master s.log)
    (durable : c.lsn < endLsn s'.log) : c ∈ done := by
  rw [left.split] at member
  rcases List.mem_append.mp member with here | later
  · exact here
  · have bound := compensations_lsn left.chained later
    omega

theorem Interrupted.page (chained : Chained s.log) (interrupted : Interrupted master s s')
    (left : Left master s s' done) (p : PageId) :
    (∃ n, s'.disk p = redoPage p ((analysis master s.log).dirtyPages.lookup p) (s.log.take n)
      (s.disk p)) ∨
    ∃ c ∈ done, IsUpdateOf p c ∧ c.afterImage = some (s'.disk p).body ∧
      (s'.disk p).lsn = c.lsn := by
  rcases interrupted.pages p with same | ⟨seen, durable⟩
  · refine .inl ⟨0, ?_⟩
    rw [same, List.take_zero, redoPage_ahead (by simp)]
  · rcases seen.cases chained with early | ⟨added, isPrefix, eq⟩
    · exact .inl early
    · rcases newest_or_untouched p added with ⟨c, newest⟩ | untouched
      · obtain ⟨body, image⟩ := newest.body
        rw [newest.replay image] at eq
        obtain ⟨_, _, _, update, _⟩ := id newest
        rw [eq] at durable
        refine .inr ⟨c, left.mem_done (isPrefix.subset newest.mem) durable, update, ?_, ?_⟩
        · rw [eq, image]
        · rw [eq]
      · refine .inl ⟨s.log.length, ?_⟩
        rw [List.take_length, ← redo_eq_redoPage, eq, replay_untouched untouched]

theorem redo_left (chained : Chained s.log) (beyond : master ≤ endLsn s.log)
    (interrupted : Interrupted master s s') (left : Left master s s' done)
    (behind : ∀ c, Newest p done c → (s.disk p).lsn < c.lsn ∨ c.afterImage = some (s.disk p).body) :
    (redo (analysis master s'.log).dirtyPages s'.log s'.disk p).body =
      (replay (redo (analysis master s.log).dirtyPages s.log s.disk) done p).body := by
  have page := interrupted.page chained left p
  have sorted : s'.log.Pairwise fun a b => a.lsn < b.lsn := left.chained.placed.sorted
  have ofDone : ∀ c ∈ done, c ∈ compensations master s.log := fun c member => by
    rw [left.split]
    exact List.mem_append_left _ member
  rcases newest_or_untouched p done with ⟨c, newest⟩ | untouched
  · obtain ⟨body, image⟩ := newest.body
    have inLog : Newest p s'.log c := by
      rw [left.log]
      exact newest.append_left s.log
    have bound : endLsn s.log ≤ c.lsn := compensations_lsn chained (ofDone c newest.mem)
    rw [newest.replay image]
    by_cases older : (s'.disk p).lsn < c.lsn
    · have scannedC : c ∈ scanned master s'.log :=
        mem_scanned.mpr ⟨inLog.mem, .inr (le_trans beyond bound)⟩
      obtain ⟨before, after, split, update, last⟩ := inLog
      have covers := covers_of_update scannedC update
      have placed := left.chained.placed
      rw [split] at placed covers ⊢
      rw [redo_newest s'.disk placed update image last covers older]
    · have stays : redo (analysis master s'.log).dirtyPages s'.log s'.disk p = s'.disk p := by
        rw [redo_eq_redoPage]
        refine redoPage_ahead fun r member update _ => ?_
        exact le_trans (inLog.le sorted member update) (Nat.not_lt.mp older)
      rw [stays]
      rcases page with ⟨n, eq⟩ | ⟨c', member, update, image', lsn⟩
      · rcases redoPage_cases p ((analysis master s.log).dirtyPages.lookup p) (s.log.take n)
          (s.disk p) with same | ⟨r, member, _, lsn⟩
        · rw [same] at eq
          rw [eq] at older ⊢
          rcases behind c newest with lt | bytes
          · exact absurd lt older
          · rw [image, Option.some.injEq] at bytes
            exact bytes.symm
        · have inside := chained.placed.lsn_lt_end (List.mem_of_mem_take member)
          rw [← lsn, ← eq] at inside
          omega
      · have inside : c' ∈ s'.log := by
          rw [left.log]
          exact List.mem_append_right _ member
        have upper := inLog.le sorted inside update
        have same : c' = c :=
          left.chained.placed.eq_of_lsn_eq inside inLog.mem (by omega)
        rw [same, image, Option.some.injEq] at image'
        exact image'.symm
  · have dirty : (analysis master s'.log).dirtyPages.lookup p =
        (analysis master s.log).dirtyPages.lookup p := by
      rw [left.log]
      exact lookup_analysis_append chained beyond ⟨_, left.split.symm⟩ untouched
    rcases page with ⟨n, eq⟩ | ⟨c, member, update, _⟩
    · have rest : ∀ version, redoPage p ((analysis master s.log).dirtyPages.lookup p) done version =
          version := fun version =>
        redoPage_ahead fun r member update _ => absurd update (untouched r member)
      rw [replay_untouched untouched, redo_eq_redoPage, redo_eq_redoPage, dirty, left.log,
        redoPage_append, rest, eq, redoPage_again]
    · exact absurd update (untouched c member)

theorem recover_left (chained : Chained s.log) (beyond : master ≤ endLsn s.log)
    (behind : Behind master s) (interrupted : Interrupted master s s')
    (left : Left master s s' done) {whole last : UndoState β}
    (recovered : recover master s.log s.disk = .done whole)
    (recovered' : recover master s'.log s'.disk = .done last) (p : PageId) :
    (last.pages p).body = (whole.pages p).body := by
  obtain ⟨_, eq, _, pages⟩ := recover_done master chained
  obtain ⟨_, eq', _, pages'⟩ := recover_done master left.chained
  rw [recovered, Outcome.done.injEq] at eq
  rw [recovered', Outcome.done.injEq] at eq'
  subst eq eq'
  rw [pages, pages', left.split, replay_append]
  rcases newest_or_untouched p (compensations master s'.log) with ⟨c, newest⟩ | untouched
  · obtain ⟨body, image⟩ := newest.body
    rw [newest.replay image, newest.replay image]
  · rw [replay_untouched untouched, replay_untouched untouched]
    refine redo_left chained beyond interrupted left fun c newest => behind p c ?_
    rw [left.split]
    exact newest.append_right untouched

theorem Behind.left (behind : Behind master s) (interrupted : Interrupted master s s')
    (left : Left master s s' done) : Behind master s' := by
  intro p c newest
  have bound := compensations_lsn left.chained newest.mem
  rcases interrupted.pages p with same | ⟨_, durable⟩
  · rw [same]
    refine behind p c ?_
    rw [left.split]
    exact newest.append_left done
  · exact .inl (by omega)

end Step

section Restart

variable {master : Nat}

variable {s : Crash β}

section

variable (chained : Chained s.log)

include chained

theorem restartable_of_behind (beyond : master ≤ endLsn s.log)
    (behind : Behind master s) : Restartable master s := by
  intro s' interruptions
  obtain ⟨whole, recovered, _⟩ := recover_done master chained
  have all : Chained s'.log ∧ master ≤ endLsn s'.log ∧ Behind master s' ∧
      ∃ last, recover master s'.log s'.disk = .done last ∧
        ∀ p, (last.pages p).body = (whole.pages p).body := by
    induction interruptions with
    | refl => exact ⟨chained, beyond, behind, whole, recovered, fun _ => rfl⟩
    | tail _ interrupted ih =>
      obtain ⟨chainedMid, beyondMid, behindMid, mid, recoveredMid, sameMid⟩ := ih
      obtain ⟨done, left⟩ := interrupted.left chainedMid beyondMid
      obtain ⟨last, recoveredLast, _⟩ := recover_done master left.chained
      refine ⟨left.chained, left.beyond, behindMid.left interrupted left, last,
        recoveredLast, fun p => ?_⟩
      rw [recover_left chainedMid beyondMid behindMid interrupted left recoveredMid recoveredLast,
        sameMid p]
  obtain ⟨_, _, _, last, recoveredLast, same⟩ := all
  exact ⟨whole, last, recovered, recoveredLast, same⟩

theorem interrupted_at_end :
    Interrupted master s ⟨s.log ++ compensations master s.log, s.disk⟩ := by
  obtain ⟨whole, recovered, logs, _⟩ := recover_done master chained
  refine ⟨List.prefix_append _ _, ?_, fun p => .inl rfl⟩
  rw [recovered, ← logs]
  exact prefix_refl _

theorem behind_of_restartable (beyond : master ≤ endLsn s.log)
    (restartable : Restartable master s) :
    Behind master s := by
  intro p c newest
  by_contra ahead
  rw [not_or, Nat.not_lt] at ahead
  obtain ⟨body, image⟩ := newest.body
  obtain ⟨whole, last, recovered, recoveredLast, same⟩ :=
    restartable _ (.single (interrupted_at_end chained))
  obtain ⟨split, chainedAll⟩ := compensations_of_prefix chained beyond
    (prefix_refl (compensations master s.log))
  have nothing : compensations master (s.log ++ compensations master s.log) = [] := by
    have lengths := congrArg List.length split
    rw [List.length_append] at lengths
    exact List.eq_nil_of_length_eq_zero (by omega)
  obtain ⟨_, eq, _, pages⟩ := recover_done master chained
  obtain ⟨_, eq', _, pages'⟩ := recover_done master
    (s := ⟨s.log ++ compensations master s.log, s.disk⟩) chainedAll
  rw [recovered, Outcome.done.injEq] at eq
  rw [recoveredLast, Outcome.done.injEq] at eq'
  subst eq eq'
  have inLog := newest.append_left s.log
  have stays : last.pages p = s.disk p := by
    rw [pages', nothing, replay_untouched (by simp), redo_eq_redoPage]
    refine redoPage_ahead fun r member update _ => ?_
    exact le_trans (inLog.le chainedAll.placed.sorted member update) ahead.1
  have bodies := same p
  rw [stays, pages, newest.replay image] at bodies
  exact ahead.2 (by rw [image, bodies])

theorem behind_of_logged (logged : ∀ p, (s.disk p).lsn < endLsn s.log) :
    Behind master s := by
  intro p c newest
  exact .inl (lt_of_lt_of_le (logged p) (compensations_lsn chained newest.mem))

end

theorem MasterValid.beyond {log : List (Rec β)} (valid : MasterValid master log)
    (placed : Placed log) : master ≤ endLsn log := by
  rcases valid with zero | ⟨rec, member, _, at_lsn⟩
  · omega
  · rw [← at_lsn]
    exact le_of_lt (placed.lsn_lt_end member)

/-- Recovery is restartable exactly where no page on disk is ahead of the last compensation
that undoing the losers writes for it. -/
theorem restartable_iff {log : List (Rec β)} (written : Written log)
    (checkpoint : MasterValid master log) (disk : PageId → Page β) :
    Restartable master ⟨log, disk⟩ ↔ Behind master ⟨log, disk⟩ :=
  have beyond := checkpoint.beyond written.chained.placed
  ⟨behind_of_restartable written.chained beyond, restartable_of_behind written.chained beyond⟩

def startedLog : List (Rec Nat) :=
  append (append [] (txnRecord .begin 1 0))
    (makePageImageLogRecord none .heapInsert 1 8 ⟨1, 0⟩ (some 0) (some 7))

theorem written_startedLog : Written startedLog :=
  .update (.begin .created 1) rfl (.inr ⟨_, List.mem_singleton.mpr rfl, ⟨rfl, rfl⟩, rfl⟩) _ _ _

theorem restartable_startedLog : Restartable 0 ⟨startedLog, WriteAhead.zeroPages⟩ := by
  have logged : Behind 0 ⟨startedLog, WriteAhead.zeroPages⟩ :=
    behind_of_logged written_startedLog.chained fun p => show 0 < endLsn startedLog by
      decide +kernel
  exact (restartable_iff written_startedLog (.inl rfl) WriteAhead.zeroPages).mpr logged

end Restart

section LostChange

open Lib.GuardedRun
open Buffer.WriteAhead (State Label firstUpdate zeroPages)

def crashOf (s : State β) : Crash β :=
  ⟨s.wal.records.take s.wal.synced, fun p => (s.disk p).page⟩

/-- The transaction changes the page once more after `FlushFrame` has read its LSN and flushed
the log; then the page is written. -/
def changedInFlush : List (Label Nat) :=
  firstUpdate ++ [.fetch 1 1 ⟨1, 0⟩, .beginFlush ⟨1, 0⟩, .flushUpTo, .change 1 9,
    .append 1 .heapInsert, .setPageLsn 1, .writePage]

def undoneUpdate : Rec Nat :=
  { makeClrPageUndoRecord none 1 62 8 ⟨1, 0⟩ (some 0) with lsn := endLsn startedLog }

theorem newest_undoneUpdate : Newest ⟨1, 0⟩ (compensations 0 startedLog) undoneUpdate := by
  have all : compensations 0 startedLog = [undoneUpdate,
      { txnRecord .abort 1 8 with lsn := endLsn (startedLog ++ [undoneUpdate]) }] := by
    decide +kernel
  refine ⟨[], _, all, ⟨rfl, rfl, rfl, rfl⟩, fun x member update => ?_⟩
  rw [List.mem_singleton] at member
  subst member
  cases update.update

/-- The page on disk has the LSN that the first compensation gets: once that is durable, the
next recovery takes the lost change for the undone page. -/
theorem lost_change_survives : ∃ s,
    Run WriteAhead.step (fun _ _ => True) (State.start [] zeroPages) changedInFlush s ∧
      ¬Restartable 0 (crashOf s) := by
  have executed : (exec (fun s a => if True then WriteAhead.step s a else none)
      (State.start [] zeroPages) changedInFlush).any (fun s =>
        decide (s.wal.records.take s.wal.synced = startedLog ∧
          (s.disk ⟨1, 0⟩).page = ⟨endLsn startedLog, 9⟩)) = true := by
    decide +kernel
  obtain ⟨s, reached, facts⟩ := (Option.any_eq_true _ _).mp executed
  obtain ⟨log, page⟩ := of_decide_eq_true facts
  refine ⟨s, run_of_exec reached, fun restartable => ?_⟩
  have crash : (crashOf s).log = startedLog := log
  have behind := behind_of_restartable (by rw [crash]; exact written_startedLog.chained)
    (Nat.zero_le _) restartable
  have newest : Newest ⟨1, 0⟩ (compensations 0 (crashOf s).log) undoneUpdate := by
    rw [crash]
    exact newest_undoneUpdate
  have ahead := behind _ _ newest
  rw [show (crashOf s).disk ⟨1, 0⟩ = ⟨endLsn startedLog, 9⟩ from page] at ahead
  rcases ahead with older | same
  · exact absurd older (Nat.lt_irrefl _)
  · cases same

end LostChange

end GraniteDb.Recovery.RecoveryRestart
