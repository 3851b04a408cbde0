/- What undo appends to the log, and how a later undo goes on after any part of it. -/

import GraniteDb.Recovery.UndoPass

namespace GraniteDb.Recovery.Compensations

open Common.Types Recovery.WalRecords Recovery.RecordLog Recovery.RecoveryManager
open Recovery.RecoveryFacts Recovery.LogHistory Recovery.UndoPass
open Function (update_self update_of_ne update_idem update_comm)
open List (append_assoc mem_singleton append_nil cons_append)

variable {β : Type}

section Emission

theorem visit_cases (s : Pass β) (rec : Rec β) (last : Nat) :
    (∃ next, ∀ (s : Pass β) (last : Nat),
      visit s rec last = s.setCursor rec.txnId (some ⟨next, last⟩)) ∨
    (∃ prevLsn, (prevLsn = rec.lsn ∨ prevLsn = last) ∧
      visit s rec last = s.finish rec.txnId prevLsn) ∨
    (undoes rec = true ∧
      visit s rec last = (s.compensate rec last).stepTo rec.txnId rec.prevLsn (endLsn s.log)) := by
  by_cases isClr : rec.type = .clr
  · by_cases more : rec.undoNextLsn ≠ 0
    · exact .inl ⟨rec.undoNextLsn, fun s last => by simp [visit, isClr, more]⟩
    · exact .inr (.inl ⟨rec.lsn, .inl rfl, by simp [visit, isClr, more]⟩)
  · by_cases isBegin : rec.type = .begin
    · exact .inr (.inl ⟨rec.lsn, .inl rfl, by simp [visit, isBegin]⟩)
    · by_cases undoable : undoes rec = true
      · exact .inr (.inr ⟨undoable, by simp [visit, isClr, isBegin, undoable]⟩)
      · by_cases more : rec.prevLsn ≠ 0
        · exact .inl ⟨rec.prevLsn, fun s last => by
            simp [visit, isClr, isBegin, undoable, Pass.stepTo, more]⟩
        · exact .inr (.inl ⟨last, .inr rfl, by
            simp [visit, isClr, isBegin, undoable, Pass.stepTo, more]⟩)

theorem stepTo_log (s : Pass β) (t next last : Nat) :
    (s.stepTo t next last).log = s.log ∨
      (s.stepTo t next last).log = append s.log (txnRecord .abort t last) := by
  unfold Pass.stepTo
  split
  · exact .inl rfl
  · exact .inr rfl

structure Compensates (c rec : Rec β) : Prop where
  isClr : c.type = .clr
  hasPage : c.hasPage = true
  txn : c.txnId = rec.txnId
  page : c.pageId = rec.pageId
  image : c.afterImage = rec.beforeImage
  next : c.undoNextLsn = rec.prevLsn
  undoes : undoes rec = true

/-- A record that undo appends while it passes over `records`. -/
def Emitted (records : List (Rec β)) (s : Pass β) (c : Rec β) : Prop :=
  s.cursors c.txnId ≠ none ∧ (c.type = .abort ∨ ∃ rec ∈ records, Compensates c rec)

variable {rec : Rec β} {cursor : Cursor} {s : Pass β}

theorem compensates_compensation (undoable : undoes rec = true) (last lsn : Nat) :
    Compensates { compensation rec last with lsn := lsn } rec :=
  ⟨rfl, rfl, rfl, rfl, rfl, rfl, undoable⟩

section

variable (found : s.cursors rec.txnId = some cursor)

include found

theorem visit_log (last : Nat) :
    ∃ added, (visit s rec last).log = s.log ++ added ∧ ∀ c ∈ added, Emitted [rec] s c := by
  have loser : s.cursors rec.txnId ≠ none := by
    rw [found]
    exact Option.some_ne_none cursor
  rcases visit_cases s rec last with ⟨next, eq⟩ | ⟨prevLsn, _, eq⟩ | ⟨undoable, eq⟩
  · exact ⟨[], by rw [eq s last, setCursor_log, append_nil], by simp⟩
  · refine ⟨_, by rw [eq]; rfl, fun c member => ?_⟩
    rw [mem_singleton] at member
    subst member
    exact ⟨loser, .inl rfl⟩
  · have first : Emitted [rec] s { compensation rec last with lsn := endLsn s.log } :=
      ⟨loser, .inr ⟨rec, mem_singleton.mpr rfl, compensates_compensation undoable _ _⟩⟩
    rw [eq]
    rcases stepTo_log (s.compensate rec last) rec.txnId rec.prevLsn (endLsn s.log) with h | h
    · refine ⟨_, h, fun c member => ?_⟩
      rw [mem_singleton] at member
      subst member
      exact first
    · refine ⟨_, by rw [h]; exact append_assoc _ _ _, fun c member => ?_⟩
      rcases List.mem_append.mp member with here | here
      · rw [mem_singleton] at here
        subst here
        exact first
      · rw [mem_singleton] at here
        subst here
        exact ⟨loser, .inl rfl⟩

theorem visit_none {last t : Nat}
    (still : (visit s rec last).cursors t ≠ none) : s.cursors t ≠ none := by
  by_cases same : t = rec.txnId
  · subst same
    rw [found]
    exact Option.some_ne_none cursor
  · rw [visit_other s last same] at still
    exact still

theorem passStep_of_here
    (here : cursor.next = rec.lsn) :
    passStep rec s = visit s rec cursor.last := by
  simp only [passStep, found, here, if_true]

end

theorem passStep_of_apart
    (apart : ∀ cursor, s.cursors rec.txnId = some cursor → cursor.next ≠ rec.lsn) :
    passStep rec s = s := by
  unfold passStep
  cases found : s.cursors rec.txnId with
  | none => rfl
  | some cursor => simp only [apart cursor found, if_false]

theorem passStep_cases (s : Pass β) (rec : Rec β) :
    (∃ cursor, s.cursors rec.txnId = some cursor ∧ cursor.next = rec.lsn ∧
      passStep rec s = visit s rec cursor.last) ∨
    ((∀ cursor, s.cursors rec.txnId = some cursor → cursor.next ≠ rec.lsn) ∧
      passStep rec s = s) := by
  by_cases hit : ∃ cursor, s.cursors rec.txnId = some cursor ∧ cursor.next = rec.lsn
  · obtain ⟨cursor, found, here⟩ := hit
    exact .inl ⟨cursor, found, here, passStep_of_here found here⟩
  · have apart : ∀ cursor, s.cursors rec.txnId = some cursor → cursor.next ≠ rec.lsn :=
      fun cursor found here => hit ⟨cursor, found, here⟩
    exact .inr ⟨apart, passStep_of_apart apart⟩

theorem pass_log (records : List (Rec β)) (s : Pass β) :
    ∃ added, (pass records s).log = s.log ++ added ∧ ∀ c ∈ added, Emitted records s c := by
  induction records using List.reverseRecOn generalizing s with
  | nil => exact ⟨[], by simp [UndoPass.pass], by simp⟩
  | append_singleton records rec ih =>
    rw [pass_snoc]
    obtain ⟨later, log, emitted⟩ := ih (passStep rec s)
    rcases passStep_cases s rec with ⟨cursor, found, here, eq⟩ | ⟨apart, eq⟩
    · obtain ⟨now, logNow, emittedNow⟩ := visit_log found cursor.last
      rw [eq] at log emitted ⊢
      refine ⟨now ++ later, by rw [log, logNow, append_assoc], fun c member => ?_⟩
      rcases List.mem_append.mp member with inNow | inLater
      · obtain ⟨loser, kind⟩ := emittedNow c inNow
        refine ⟨loser, kind.imp_right ?_⟩
        rintro ⟨r, inSingle, compensates⟩
        exact ⟨r, List.mem_append_right _ inSingle, compensates⟩
      · obtain ⟨loser, kind⟩ := emitted c inLater
        refine ⟨visit_none found loser, kind.imp_right ?_⟩
        rintro ⟨r, inRecords, compensates⟩
        exact ⟨r, List.mem_append_left _ inRecords, compensates⟩
    · rw [eq] at log emitted ⊢
      refine ⟨later, log, fun c member => ?_⟩
      obtain ⟨loser, kind⟩ := emitted c member
      refine ⟨loser, kind.imp_right ?_⟩
      rintro ⟨r, inRecords, compensates⟩
      exact ⟨r, List.mem_append_left _ inRecords, compensates⟩

end Emission

section Resumption

/-- The pass of a process that finds `c` at the end of the log, once it has passed `c`. -/
def resume (s : Pass β) (c : Rec β) : Pass β :=
  if c.type = .clr then
    ({ s with log := s.log ++ [c] } : Pass β).stepTo c.txnId c.undoNextLsn c.lsn
  else ⟨s.log ++ [c], Function.update s.cursors c.txnId none⟩

variable {c : Rec β} {s : Pass β}

theorem resume_other (s : Pass β) {t : Nat} (other : t ≠ c.txnId) :
    (resume s c).cursors t = s.cursors t := by
  unfold resume
  split
  · rw [stepTo_other _ _ _ other]
  · exact update_of_ne other ..

theorem resume_self {cursor : Cursor} (found : (resume s c).cursors c.txnId = some cursor) :
    c.type = .clr ∧ cursor.next = c.undoNextLsn := by
  unfold resume at found
  split at found
  · rename_i isClr
    obtain ⟨_, rfl⟩ := stepTo_next found
    exact ⟨isClr, rfl⟩
  · have gone : (Function.update s.cursors c.txnId none) c.txnId = some cursor := found
    rw [update_self] at gone
    cases gone

theorem resume_setCursor_self (s : Pass β) (cursor : Option Cursor) :
    resume (s.setCursor c.txnId cursor) c = resume s c := by
  unfold resume Pass.stepTo Pass.setCursor Pass.finish
  split
  · split <;> simp [update_idem]
  · simp [update_idem]

theorem resume_setCursor_other (s : Pass β) {t : Nat} (other : t ≠ c.txnId)
    (cursor : Option Cursor) :
    resume (s.setCursor t cursor) c = (resume s c).setCursor t cursor := by
  unfold resume Pass.stepTo Pass.setCursor Pass.finish
  split
  · split <;> simp [update_comm other]
  · simp [update_comm other]

theorem undoNext_lt {records : List (Rec β)} (chained : Chained records)
    (emitted : Emitted records s c) (isClr : c.type = .clr) :
    c.undoNextLsn < endLsn records := by
  rcases emitted.2 with isAbort | ⟨rec, member, compensates⟩
  · rw [isClr] at isAbort
    cases isAbort
  · have shape := compensates.undoes
    unfold undoes at shape
    rw [Bool.and_eq_true] at shape
    rw [compensates.next]
    exact (chained.linked_prev member (isTxnRecord_of_undoable shape.1)).lt_end chained.placed

theorem pass_resume {records : List (Rec β)} (chained : Chained records) {rest : List (Rec β)}
    (placed : c.lsn = endLsn s.log) (log : (pass records s).log = s.log ++ c :: rest) :
    pass records (resume s c) = pass records s := by
  induction records using List.reverseRecOn generalizing s with
  | nil => simp [UndoPass.pass] at log
  | append_singleton records rec ih =>
    have at_end : rec.lsn = endLsn records := chained.placed records [] rec rfl
    -- The resumed pass has nothing to do at `rec` for the transaction of `c`.
    have passedBy (below : c.type = .clr → c.undoNextLsn < rec.lsn) (same : rec.txnId = c.txnId) :
        passStep rec (resume s c) = resume s c := by
      refine passStep_of_apart fun cursor found => ?_
      rw [same] at found
      obtain ⟨isClr, next⟩ := resume_self found
      have lt := below isClr
      omega
    have laterBelow {s' : Pass β} (log' : (pass records s').log = s'.log ++ c :: rest) :
        c.type = .clr → c.undoNextLsn < rec.lsn := by
      intro isClr
      obtain ⟨added, eq, emitted⟩ := pass_log records s'
      have here : c ∈ added := by
        rw [log'] at eq
        rw [← List.append_cancel_left eq]
        exact List.mem_cons_self
      rw [at_end]
      exact undoNext_lt chained.left (emitted c here) isClr
    rw [pass_snoc] at log
    rw [pass_snoc, pass_snoc]
    rcases passStep_cases s rec with ⟨cursor, found, here, eq⟩ | ⟨apart, eq⟩
    · rw [eq] at log ⊢
      rcases visit_cases s rec cursor.last with ⟨next, moved⟩ | ⟨prevLsn, _, ended⟩ |
          ⟨undoable, compensated⟩
      · rw [moved] at log ⊢
        have goesOn := ih (s := s.setCursor rec.txnId (some ⟨next, cursor.last⟩)) chained.left
          placed log
        by_cases same : rec.txnId = c.txnId
        · rw [passedBy (laterBelow log) same, ← goesOn, same, resume_setCursor_self]
        · have foundThere : (resume s c).cursors rec.txnId = some cursor := by
            rw [resume_other s same, found]
          rw [passStep_of_here foundThere here, moved, ← resume_setCursor_other s same, goesOn]
      · rw [ended] at log ⊢
        obtain ⟨added, eq', _⟩ := pass_log records (s.finish rec.txnId prevLsn)
        have first : c = { txnRecord .abort rec.txnId prevLsn with lsn := endLsn s.log } := by
          rw [eq'] at log
          have tails := List.append_cancel_left ((append_assoc _ _ _).symm.trans log)
          exact (List.cons.inj tails).1.symm
        have isAbort : resume s c = s.finish rec.txnId prevLsn := by
          rw [first]
          rfl
        have notClr : c.type = .clr → c.undoNextLsn < rec.lsn := by
          rw [first]
          intro isClr
          cases isClr
        rw [passedBy notClr (by rw [first]; rfl), isAbort]
      · rw [compensated] at log ⊢
        obtain ⟨added, eq', _⟩ := pass_log records
          ((s.compensate rec cursor.last).stepTo rec.txnId rec.prevLsn (endLsn s.log))
        have first : c = { compensation rec cursor.last with lsn := endLsn s.log } := by
          rw [log] at eq'
          obtain ⟨more, eq''⟩ : ∃ more, ((s.compensate rec cursor.last).stepTo rec.txnId
              rec.prevLsn (endLsn s.log)).log = s.log ++
                { compensation rec cursor.last with lsn := endLsn s.log } :: more := by
            rcases stepTo_log (s.compensate rec cursor.last) rec.txnId rec.prevLsn
              (endLsn s.log) with h | h
            · exact ⟨[], h⟩
            · exact ⟨_, h.trans (append_assoc _ _ _)⟩
          rw [eq'', append_assoc, cons_append] at eq'
          exact (List.cons.inj (List.append_cancel_left eq')).1
        have same : resume s c =
            (s.compensate rec cursor.last).stepTo rec.txnId rec.prevLsn (endLsn s.log) := by
          rw [first]
          rfl
        have below : c.type = .clr → c.undoNextLsn < rec.lsn := by
          intro _
          have ofTxn : isTxnRecord rec.type = true :=
            isTxnRecord_of_undoable (Bool.and_eq_true_iff.mp undoable).1
          have lt := (chained.links_last.prev ofTxn).lt_end chained.left.placed
          rw [at_end, first]
          exact lt
        rw [passedBy below (by rw [first]; rfl), same]
    · rw [eq] at log ⊢
      have below := laterBelow log
      have unmoved : passStep rec (resume s c) = resume s c := by
        by_cases same : rec.txnId = c.txnId
        · exact passedBy below same
        · refine passStep_of_apart fun cursor found => apart cursor ?_
          rw [← resume_other s same, found]
      rw [unmoved, ih chained.left placed log]

end Resumption

section Restart

/-- A log and a pass over part of it: the pass may go on and leave a chained log. -/
structure Ready (records : List (Rec β)) (s : Pass β) : Prop where
  chained : Chained s.log
  inside : ∀ q ∈ records, q ∈ s.log
  lasts : ∀ t cursor, s.cursors t = some cursor → Linked s.log t cursor.last

variable {t master : Nat} {s : Pass β} {records log : List (Rec β)} {c : Rec β}

theorem Ready.setCursor (ready : Ready records s) {cursor : Cursor}
    (linked : Linked s.log t cursor.last) :
    Ready records (s.setCursor t (some cursor)) := by
  refine ⟨ready.chained, ready.inside, fun u cursor' found => ?_⟩
  by_cases same : u = t
  · subst same
    rw [setCursor_self, Option.some.injEq] at found
    rw [← found]
    exact linked
  · rw [setCursor_other s _ same] at found
    exact ready.lasts u cursor' found

theorem linked_append {lsn : Nat} (linked : Linked log t lsn) (rec : Rec β) :
    Linked (append log rec) t lsn :=
  linked.mono fun _ member => mem_append.mpr (.inl member)

section

variable (ready : Ready records s)

include ready

theorem Ready.finish {prevLsn : Nat} (linked : Linked s.log t prevLsn) :
    Ready records (s.finish t prevLsn) := by
  refine ⟨ready.chained.append (links_txnRecord (.inr (.inr rfl)) linked),
    fun q member => mem_append.mpr (.inl (ready.inside q member)), fun u cursor found => ?_⟩
  by_cases same : u = t
  · subst same
    rw [finish_self] at found
    cases found
  · rw [finish_other s _ same] at found
    exact linked_append (ready.lasts u cursor found) _

theorem Ready.stepTo {last : Nat} (linked : Linked s.log t last)
    (next : Nat) :
    Ready records (s.stepTo t next last) := by
  unfold Pass.stepTo
  split
  · exact ready.setCursor linked
  · exact ready.finish linked

theorem Ready.compensate {rec : Rec β} {last : Nat}
    (linked : Linked s.log rec.txnId last) (next : Linked s.log rec.txnId rec.prevLsn) :
    Ready records (s.compensate rec last) := by
  refine ⟨ready.chained.append (links_makeClrPageUndoRecord linked next),
    fun q member => mem_append.mpr (.inl (ready.inside q member)), fun u cursor found => ?_⟩
  exact linked_append (ready.lasts u cursor found) _

theorem Ready.visit {rec : Rec β} {cursor : Cursor}
    (chained : Chained records) (member : rec ∈ records) (own : Own rec.txnId rec)
    (found : s.cursors rec.txnId = some cursor) :
    Ready records (visit s rec cursor.last) := by
  have linkedLast := ready.lasts rec.txnId cursor found
  have linkedHere : Linked s.log rec.txnId rec.lsn := .inr ⟨rec, ready.inside rec member, own, rfl⟩
  rcases visit_cases s rec cursor.last with ⟨next, moved⟩ | ⟨prevLsn, which, ended⟩ |
      ⟨undoable, compensated⟩
  · rw [moved]
    exact ready.setCursor linkedLast
  · rw [ended]
    rcases which with here | last
    · rw [here]
      exact ready.finish linkedHere
    · rw [last]
      exact ready.finish linkedLast
  · rw [compensated]
    have linkedNext : Linked s.log rec.txnId rec.prevLsn :=
      (chained.linked_prev member own.ofTxn).mono ready.inside
    have linkedNew : Linked (s.compensate rec cursor.last).log rec.txnId (endLsn s.log) :=
      .inr ⟨{ compensation rec cursor.last with lsn := endLsn s.log },
        mem_append.mpr (.inr rfl), ⟨rfl, rfl⟩, rfl⟩
    exact (ready.compensate linkedLast linkedNext).stepTo linkedNew _

theorem Ready.pass (chained : Chained records)
    (cursors : CursorsIn records s) :
    Chained (pass records s).log := by
  induction records using List.reverseRecOn generalizing s with
  | nil => exact ready.chained
  | append_singleton records rec ih =>
    rw [pass_snoc]
    have after : Ready (records ++ [rec]) (passStep rec s) := by
      rcases passStep_cases s rec with ⟨cursor, found, here, eq⟩ | ⟨_, eq⟩
      · rw [eq]
        obtain ⟨q, member, own, at_lsn⟩ := cursors rec.txnId cursor found
        have self : q = rec := chained.placed.eq_of_lsn_eq member (by simp)
          (at_lsn.trans here)
        subst self
        exact ready.visit chained member own found
      · rw [eq]
        exact ready
    refine ih ⟨after.chained, fun q member => after.inside q ?_, after.lasts⟩ chained.left
      (cursors.passStep chained)
    exact List.mem_append_left _ member

end

/-- The pass of `Undo` over a log and its master record. -/
def undoPass (master : Nat) (log : List (Rec β)) : Pass β :=
  pass log (Pass.start log (analysis master log).txns)

theorem undoPass_chained (chained : Chained log) (master : Nat) :
    Chained (undoPass master log).log := by
  have cursors : CursorsIn log (Pass.start log (analysis master log).txns) :=
    cursorsIn_start chained master
  refine Ready.pass ⟨chained, fun _ member => member, fun t cursor found => ?_⟩ chained cursors
  obtain ⟨entry, known, _, _, rfl⟩ := cursorOf_eq_some found
  exact entriesIn_analysis chained master t entry known

/-- The compensations: what `Undo` appends to a log. -/
def compensations (master : Nat) (log : List (Rec β)) : List (Rec β) :=
  (undoPass master log).log.drop log.length

theorem undoPass_log (master : Nat) (log : List (Rec β)) :
    (undoPass master log).log = log ++ compensations master log := by
  obtain ⟨added, eq, _⟩ := pass_log log (Pass.start log (analysis master log).txns)
  have drop : compensations master log = added := by
    unfold compensations undoPass
    rw [eq]
    exact List.drop_left
  rw [drop]
  exact eq

theorem emitted_compensations (member : c ∈ compensations master log) :
    Emitted log (Pass.start log (analysis master log).txns) c := by
  obtain ⟨added, eq, emitted⟩ := pass_log log (Pass.start log (analysis master log).txns)
  have drop : compensations master log = added := by
    unfold compensations undoPass
    rw [eq]
    exact List.drop_left
  rw [drop] at member
  exact emitted c member

theorem analysis_snoc (beyond : master ≤ c.lsn) :
    analysis master (log ++ [c]) = analysisStep (analysis master log) c := by
  have kept : scanned master [c] = [c] := by
    simp [scanned, Nat.not_lt.mpr beyond]
  unfold analysis
  rw [scanned_append, kept, List.foldl_append]
  rfl

theorem passStep_clr (s : Pass β) (isClr : c.type = .clr) :
    passStep c ⟨s.log ++ [c], Function.update s.cursors c.txnId (some ⟨c.lsn, c.lsn⟩)⟩ =
      resume s c := by
  have here : (Function.update s.cursors c.txnId (some (⟨c.lsn, c.lsn⟩ : Cursor))) c.txnId =
      some ⟨c.lsn, c.lsn⟩ := update_self ..
  rw [passStep_of_here here rfl]
  unfold visit resume Pass.stepTo Pass.setCursor Pass.finish
  simp only [isClr, if_true]
  split <;> simp only [update_idem]

theorem passStep_start {rest : List (Rec β)} (chained : Chained log) (beyond : master ≤ endLsn log)
    (first : compensations master log = c :: rest) :
    passStep c (Pass.start (log ++ [c]) (analysis master (log ++ [c])).txns) =
      resume (Pass.start log (analysis master log).txns) c := by
  have whole := undoPass_chained chained master
  rw [undoPass_log, first] at whole
  have at_end : c.lsn = endLsn log := whole.placed log rest c rfl
  have member : c ∈ compensations master log := by
    rw [first]
    exact List.mem_cons_self
  obtain ⟨loser, kind⟩ := emitted_compensations member
  rw [analysis_snoc (by rw [at_end]; exact beyond)]
  rcases kind with isAbort | ⟨rec, member, compensates⟩
  · -- The transaction has ended: it is no loser any more.
    have txns : (analysisStep (analysis master log) c).txns =
        (analysis master log).txns.insert c.txnId ⟨.aborted, c.lsn⟩ := by
      simp only [analysisStep, isAbort]
    have gone : (Pass.start (log ++ [c]) (analysisStep (analysis master log) c).txns).cursors =
        Function.update (Pass.start log (analysis master log).txns).cursors c.txnId none := by
      funext u
      show cursorOf ((analysisStep (analysis master log) c).txns.lookup u) = _
      rw [txns]
      by_cases same : u = c.txnId
      · subst same
        rw [AList.lookup_insert, update_self]
        rfl
      · rw [AList.lookup_insert_ne same, update_of_ne same]
        rfl
    rw [passStep_of_apart (by rw [gone, update_self]; intro cursor found; cases found)]
    unfold resume
    rw [if_neg (by rw [isAbort]; simp), ← gone]
    rfl
  · -- The transaction goes on at its last record, which is `c`.
    have isClr := compensates.isClr
    have txns : (analysisStep (analysis master log) c).txns =
        observeTxn (analysis master log).txns ⟨c.txnId, .active, c.lsn⟩ := by
      simp only [analysisStep, isClr]
    obtain ⟨cursor, found⟩ := Option.ne_none_iff_exists'.mp loser
    obtain ⟨entry, known, isLoser, _, _⟩ := cursorOf_eq_some found
    have moved : (Pass.start (log ++ [c]) (analysisStep (analysis master log) c).txns).cursors =
        Function.update (Pass.start log (analysis master log).txns).cursors c.txnId
          (some ⟨c.lsn, c.lsn⟩) := by
      funext u
      show cursorOf ((analysisStep (analysis master log) c).txns.lookup u) = _
      rw [txns, lookup_observeTxn]
      by_cases same : u = c.txnId
      · subst same
        have below : entry.lastLsn < c.lsn := by
          rw [at_end]
          exact (entriesIn_analysis chained master _ entry known).lt_end chained.placed
        have notEnd : isTxnEndState entry.state = false := by
          cases state : entry.state <;> simp_all [isLoserState, isTxnEndState]
        have positive : c.lsn ≠ 0 := by omega
        rw [if_pos rfl, update_self]
        simp [entryOf, known, TxnTableEntry.observe, notEnd, cursorOf, isLoserState,
          max_eq_right (le_of_lt below), positive]
      · rw [if_neg same, update_of_ne same]
        rfl
    rw [← passStep_clr _ isClr, ← moved]
    rfl

theorem undoPass_snoc {rest : List (Rec β)} (chained : Chained log) (beyond : master ≤ endLsn log)
    (first : compensations master log = c :: rest) :
    undoPass master (log ++ [c]) = undoPass master log := by
  have whole := undoPass_chained chained master
  rw [undoPass_log, first] at whole
  have at_end : c.lsn = endLsn log := whole.placed log rest c rfl
  unfold undoPass
  rw [pass_snoc, passStep_start chained beyond first]
  have logs : (undoPass master log).log = log ++ c :: rest := by rw [undoPass_log, first]
  exact pass_resume chained at_end logs

theorem compensations_of_prefix {done : List (Rec β)} (chained : Chained log)
    (beyond : master ≤ endLsn log) (isPrefix : done <+: compensations master log) :
    compensations master log = done ++ compensations master (log ++ done) ∧
      Chained (log ++ done) := by
  induction done generalizing log with
  | nil => exact ⟨by rw [append_nil, List.nil_append], by rw [append_nil]; exact chained⟩
  | cons c later ih =>
    obtain ⟨rest, eq⟩ := isPrefix
    rw [cons_append] at eq
    have whole := undoPass_chained chained master
    rw [undoPass_log, ← eq] at whole
    have chainedNext : Chained (log ++ [c]) := by
      rw [show log ++ c :: (later ++ rest) = log ++ [c] ++ (later ++ rest) by simp] at whole
      exact whole.left
    have restSame : compensations master (log ++ [c]) = later ++ rest := by
      have same := congrArg Pass.log (undoPass_snoc chained beyond eq.symm)
      rw [undoPass_log, undoPass_log, ← eq, append_assoc] at same
      exact (List.cons.inj (List.append_cancel_left same)).2
    have beyondNext : master ≤ endLsn (log ++ [c]) := by
      have lt := endLsn_lt_append_cons log [] c
      omega
    obtain ⟨split, chainedAll⟩ := ih chainedNext beyondNext ⟨rest, restSame.symm⟩
    rw [append_assoc, List.singleton_append] at split chainedAll
    refine ⟨?_, chainedAll⟩
    rw [← eq, cons_append, ← restSame, split]

end Restart

section Pages

def applyRecord (pages : PageId → Page β) (rec : Rec β) : PageId → Page β :=
  if isPageUpdateRecord rec.type && rec.hasPage then
    (applyImage pages rec.pageId rec.afterImage rec.lsn).getD pages
  else pages

def replay (pages : PageId → Page β) (records : List (Rec β)) : PageId → Page β :=
  records.foldl applyRecord pages

theorem replay_append (pages : PageId → Page β) (first second : List (Rec β)) :
    replay pages (first ++ second) = replay (replay pages first) second := by
  unfold replay
  rw [List.foldl_append]

variable {rec : Rec β} {p : PageId} {base : PageId → Page β} {log : List (Rec β)} {s : UndoState β}

theorem applyRecord_update {pages : PageId → Page β} {body : β} (update : IsUpdateOf p rec)
    (image : rec.afterImage = some body) :
    applyRecord pages rec p = ⟨rec.lsn, body⟩ := by
  obtain ⟨isUpdate, hasPage, page, _⟩ := update
  subst page
  simp [applyRecord, isUpdate, hasPage, applyImage, image]

theorem applyRecord_other {pages : PageId → Page β} (other : ¬IsUpdateOf p rec) :
    applyRecord pages rec p = pages p := by
  unfold applyRecord
  split
  · rename_i shape
    rw [Bool.and_eq_true] at shape
    cases image : rec.afterImage with
    | none => rfl
    | some body =>
      have apart : p ≠ rec.pageId := fun same =>
        other ⟨shape.1, shape.2, same.symm, by rw [image]; rfl⟩
      exact update_of_ne apart ..
  · rfl

theorem replay_untouched {records : List (Rec β)} (untouched : ∀ rec ∈ records, ¬IsUpdateOf p rec)
    (pages : PageId → Page β) :
    replay pages records p = pages p := by
  induction records generalizing pages with
  | nil => rfl
  | cons rec rest ih =>
    show replay (applyRecord pages rec) rest p = pages p
    rw [ih (fun r member => untouched r (List.mem_cons_of_mem _ member)),
      applyRecord_other (untouched rec List.mem_cons_self)]

theorem replay_newest {before after : List (Rec β)} {body : β} (update : IsUpdateOf p rec)
    (image : rec.afterImage = some body) (newest : ∀ x ∈ after, ¬IsUpdateOf p x)
    (pages : PageId → Page β) :
    replay pages (before ++ rec :: after) p = ⟨rec.lsn, body⟩ := by
  rw [replay_append]
  show replay (applyRecord (replay pages before) rec) after p = _
  rw [replay_untouched newest, applyRecord_update update image]

/-- The pages are those of `base` under what has been appended to `log`. -/
def Replayed (log : List (Rec β)) (base : PageId → Page β) (s : UndoState β) : Prop :=
  ∃ added, s.log = log ++ added ∧ s.pages = replay base added

section

variable (replayed : Replayed log base s)

include replayed

theorem Replayed.finishAbortingTxn (t prevLsn : Nat) :
    Replayed log base (finishAbortingTxn s t prevLsn) := by
  obtain ⟨added, eq, pages⟩ := replayed
  refine ⟨added ++ [{ txnRecord .abort t prevLsn with lsn := endLsn s.log }], ?_, ?_⟩
  · show append s.log _ = _
    rw [← append_assoc, ← eq]
    rfl
  · show s.pages = _
    rw [replay_append, ← pages]
    rfl

theorem Replayed.stepOrFinish (t next : Nat) :
    Replayed log base (stepOrFinish s t next) := by
  unfold RecoveryManager.stepOrFinish
  split
  · exact replayed
  · exact replayed.finishAbortingTxn t _

theorem Replayed.undoRecord (rec : Rec β) (t : Nat)
    (entry : TxnTableEntry) : Replayed log base (leftBy (undoRecord s rec t entry)) := by
  obtain ⟨added, eq, pages⟩ := replayed
  have grown (c : Rec β) : append s.log c = log ++ (added ++ [{ c with lsn := endLsn s.log }]) := by
    rw [← append_assoc, ← eq]
    rfl
  unfold RecoveryManager.undoRecord
  dsimp only
  cases image : rec.beforeImage with
  | none =>
    refine ⟨_, grown _, ?_⟩
    rw [replay_append, ← pages]
    rfl
  | some body =>
    refine ⟨_, grown _, ?_⟩
    rw [replay_append, ← pages]
    rfl

theorem Replayed.undoStep (all : List (Rec β)) (item : HeapItem) :
    Replayed log base (leftBy (undoStep all s item)) := by
  unfold RecoveryManager.undoStep
  split
  · exact replayed
  · exact replayed
  · rename_i entry rec _ _
    split
    · split
      · exact replayed
      · exact replayed.finishAbortingTxn _ _
    · split
      · exact replayed.finishAbortingTxn _ _
      · split
        · have undone := replayed.undoRecord rec item.txnId entry
          cases result : RecoveryManager.undoRecord s rec item.txnId entry with
          | error failed =>
            rw [result] at undone
            exact undone
          | ok next =>
            rw [result] at undone
            exact undone.stepOrFinish _ _
        · exact replayed.stepOrFinish _ _

theorem Replayed.undoLoop (all : List (Rec β)) (fuel : Nat) :
    Replayed log base (undoLoop all fuel s).state := by
  induction fuel generalizing s with
  | zero =>
    unfold RecoveryManager.undoLoop
    split <;> exact replayed
  | succ fuel ih =>
    unfold RecoveryManager.undoLoop
    split
    · exact replayed
    · rename_i item _
      have popped : Replayed log base { s with queue := s.queue.erase item } := replayed
      have round := popped.undoStep all item
      cases result : RecoveryManager.undoStep all { s with queue := s.queue.erase item } item with
      | error failed =>
        rw [result] at round
        exact round
      | ok next =>
        rw [result] at round
        exact ih round

end

end Pages

end GraniteDb.Recovery.Compensations
