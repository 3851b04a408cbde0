/- The pages of a relation that are not free, and what the disk operations do to them. -/

import GraniteDb.Storage.DiskManager

namespace GraniteDb.Storage.LivePages

open Common.Types Storage.DiskManager
open Function (update_self update_of_ne)

variable {Page : Type} [Inhabited Page] {d d' : DiskManager Page}

section Definitions

omit [Inhabited Page]

def livePage (d : DiskManager Page) (p : PageId) : Option Page :=
  (d.relations p.relationId).bind fun h =>
    if p.pageNo < h.numPages ∧ p.pageNo ∉ h.freePages then (d.files h.file)[p.pageNo]? else none

def isFree (d : DiskManager Page) (p : PageId) : Bool :=
  (d.relations p.relationId).any fun h => p.pageNo ∈ h.freePages

/-- Every relation is open on a file of its own that has its pages, and lists its free pages
once. -/
structure DiskSound (d : DiskManager Page) : Prop where
  layout : Layout d
  inFile : ∀ id h, d.relations id = some h → h.numPages ≤ (d.files h.file).length
  freeInRange : ∀ id h, d.relations id = some h → ∀ pageNo ∈ h.freePages, pageNo < h.numPages
  freeOnce : ∀ id h, d.relations id = some h → h.freePages.Nodup

structure Sets (p : PageId) (content : Option Page) (d d' : DiskManager Page) : Prop where
  sound : DiskSound d'
  live : livePage d' = Function.update (livePage d) p content

variable {p : PageId}

theorem livePage_some {page : Page} (live : livePage d p = some page) :
    ∃ h, d.relations p.relationId = some h ∧ p.pageNo < h.numPages ∧ p.pageNo ∉ h.freePages ∧
      (d.files h.file)[p.pageNo]? = some page := by
  obtain ⟨h, isOpen, found⟩ := Option.bind_eq_some_iff.mp live
  split at found
  · rename_i allocated
    exact ⟨h, isOpen, allocated.1, allocated.2, found⟩
  · cases found

theorem livePage_eq {h : RelationHandle} (isOpen : d.relations p.relationId = some h) :
    livePage d p = if p.pageNo < h.numPages ∧ p.pageNo ∉ h.freePages then
      (d.files h.file)[p.pageNo]? else none := by
  simp [livePage, isOpen]

theorem DiskSound.isSome (sound : DiskSound d) {h : RelationHandle}
    (isOpen : d.relations p.relationId = some h) (inRange : p.pageNo < h.numPages)
    (notFree : p.pageNo ∉ h.freePages) : ∃ page, livePage d p = some page := by
  have length := sound.inFile _ h isOpen
  have inFile : p.pageNo < (d.files h.file).length := by omega
  refine ⟨(d.files h.file)[p.pageNo], ?_⟩
  rw [livePage_eq isOpen, if_pos ⟨inRange, notFree⟩, List.getElem?_eq_getElem inFile]

theorem livePage_spares {id : Nat} (spares : Spares id d d') (own : p.relationId = id) :
    livePage d' p = livePage d p := by
  subst own
  unfold livePage
  rw [spares.relations]
  cases isOpen : d.relations p.relationId with
  | none => rfl
  | some h => simp only [Option.bind_some, spares.files h isOpen]

end Definitions

section Reads

omit [Inhabited Page]

theorem readPage_live {p : PageId} {page : Page} (live : livePage d p = some page) :
    d.readPage p = .ok page := by
  obtain ⟨h, isOpen, inRange, -, found⟩ := livePage_some live
  have notPast : ¬ h.numPages ≤ p.pageNo := by omega
  simp [DiskManager.readPage, isOpen, notPast, found]

end Reads

section Writes

omit [Inhabited Page] in
private theorem sets_of_touches (sound : DiskSound d) {p : PageId} {content : Option Page}
    {h h' : RelationHandle} (touches : Touches p.relationId d d')
    (isOpen : d.relations p.relationId = some h) (isOpen' : d'.relations p.relationId = some h')
    (inFile : h'.numPages ≤ (d'.files h'.file).length)
    (freeInRange : ∀ pageNo ∈ h'.freePages, pageNo < h'.numPages)
    (freeOnce : h'.freePages.Nodup)
    (pages : ∀ pageNo, livePage d' ⟨p.relationId, pageNo⟩ =
      if pageNo = p.pageNo then content else livePage d ⟨p.relationId, pageNo⟩) :
    Sets p content d d' := by
  have others : ∀ id h₁, d'.relations id = some h₁ → id ≠ p.relationId →
      d.relations id = some h₁ ∧ d'.files h₁.file = d.files h₁.file := by
    intro id h₁ open₁ other
    have spares := touches.spares sound.layout other
    have before : d.relations id = some h₁ := by
      rw [← spares.relations]
      exact open₁
    exact ⟨before, spares.files h₁ before⟩
  refine ⟨⟨touches.layout sound.layout, ?_, ?_, ?_⟩, ?_⟩
  · intro id h₁ open₁
    by_cases own : id = p.relationId
    · subst own
      have same := Option.some.inj (open₁.symm.trans isOpen')
      subst same
      exact inFile
    · obtain ⟨before, file⟩ := others id h₁ open₁ own
      rw [file]
      exact sound.inFile id h₁ before
  · intro id h₁ open₁
    by_cases own : id = p.relationId
    · subst own
      have same := Option.some.inj (open₁.symm.trans isOpen')
      subst same
      exact freeInRange
    · exact sound.freeInRange id h₁ (others id h₁ open₁ own).1
  · intro id h₁ open₁
    by_cases own : id = p.relationId
    · subst own
      have same := Option.some.inj (open₁.symm.trans isOpen')
      subst same
      exact freeOnce
    · exact sound.freeOnce id h₁ (others id h₁ open₁ own).1
  · funext q
    by_cases own : q.relationId = p.relationId
    · have page := pages q.pageNo
      rw [← own] at page
      rw [page]
      by_cases here : q.pageNo = p.pageNo
      · have same : q = p := by
          cases q
          cases p
          simp_all
        subst same
        simp
      · have other : q ≠ p := fun same => here (congrArg PageId.pageNo same)
        rw [update_of_ne other, if_neg here]
    · have other : q ≠ p := fun same => own (congrArg PageId.relationId same)
      rw [update_of_ne other]
      exact livePage_spares (touches.spares sound.layout own) rfl

theorem writePage_live (sound : DiskSound d) {p : PageId} {old : Page}
    (live : livePage d p = some old) (page : Page) :
    ∃ d', writePage p page d = (.ok (), d') ∧ d'.relations = d.relations ∧
      Sets p (some page) d d' := by
  obtain ⟨h, isOpen, inRange, notFree, -⟩ := livePage_some live
  have length := sound.inFile _ h isOpen
  have inFile : p.pageNo < (d.files h.file).length := by omega
  have written : writePage p page d = (.ok (),
      (d.setFile h.file (setPage (d.files h.file) p.pageNo page)).persist h) := by
    unfold writePage
    simp only [isOpen]
    rw [if_neg (by omega)]
  refine ⟨_, written, rfl, ?_⟩
  apply sets_of_touches sound (writePage_touches written) isOpen isOpen
  · rw [DiskManager.persist_files, DiskManager.setFile_files, update_self,
      length_setPage]
    omega
  · exact sound.freeInRange _ h isOpen
  · exact sound.freeOnce _ h isOpen
  · intro pageNo
    have isOpen' : ((d.setFile h.file (setPage (d.files h.file) p.pageNo page)).persist
        h).relations p.relationId = some h := isOpen
    rw [livePage_eq (p := ⟨p.relationId, pageNo⟩) isOpen',
      livePage_eq (p := ⟨p.relationId, pageNo⟩) isOpen]
    simp only [DiskManager.persist_files, DiskManager.setFile_files, update_self,
      getElem?_setPage inFile]
    by_cases here : pageNo = p.pageNo
    · subst here
      simp [inRange, notFree]
    · simp [here, Ne.symm here]

private theorem getElem?_setPage_below {pages : List Page} {pageNo i : Nat}
    (inFile : pageNo ≤ pages.length) (below : i < pageNo) (page : Page) :
    (setPage pages pageNo page)[i]? = pages[i]? := by
  have other : pageNo ≠ i := by omega
  have left : i < pages.length := by omega
  rw [setPage, List.getElem?_set_ne other, List.getElem?_append_left left]

private theorem getElem?_setPage_self (pages : List Page) (pageNo : Nat) (page : Page) :
    (setPage pages pageNo page)[pageNo]? = some page := by
  have inside : pageNo < (pages ++ List.replicate (pageNo + 1 - pages.length) default).length := by
    simp only [List.length_append, List.length_replicate]
    omega
  rw [setPage, List.getElem?_set_self inside]

theorem allocatePage_live (sound : DiskSound d) {id : Nat} {h : RelationHandle}
    (isOpen : d.relations id = some h) :
    ∃ pageNo d', allocatePage id d = (.ok pageNo, d') ∧ livePage d ⟨id, pageNo⟩ = none ∧
      Sets ⟨id, pageNo⟩ (some default) d d' := by
  have length := sound.inFile _ h isOpen
  have once := sound.freeOnce _ h isOpen
  have range := sound.freeInRange _ h isOpen
  rcases free : h.freePages with _ | ⟨pageNo, rest⟩
  · let next := { h with numPages := h.numPages + 1, freePages := [] }
    have ran : allocatePage id d = (.ok h.numPages, ((d.setHandle id next).setFile h.file
        (setPage (d.files h.file) h.numPages default)).persist next) := by
      unfold allocatePage
      simp only [isOpen, free]
      rfl
    have isOpen' : (((d.setHandle id next).setFile h.file
        (setPage (d.files h.file) h.numPages default)).persist next).relations id =
        some next := by simp
    refine ⟨_, _, ran, by simp [livePage_eq (p := ⟨id, h.numPages⟩) isOpen], ?_⟩
    apply sets_of_touches sound (allocatePage_touches ran) isOpen isOpen'
    · simp only [DiskManager.persist_files, DiskManager.setFile_files]
      rw [update_self, length_setPage]
      exact le_max_right _ _
    · intro pageNo member
      cases member
    · exact List.nodup_nil
    · intro pageNo
      rw [livePage_eq (p := ⟨id, pageNo⟩) isOpen', livePage_eq (p := ⟨id, pageNo⟩) isOpen]
      simp only [next, free, DiskManager.persist_files, DiskManager.setFile_files,
        update_self, List.not_mem_nil, not_false_eq_true, and_true]
      by_cases here : pageNo = h.numPages
      · subst here
        simp [getElem?_setPage_self]
      · by_cases below : pageNo < h.numPages
        · rw [if_neg here, if_pos below, if_pos (by omega),
            getElem?_setPage_below length below]
        · rw [if_neg here, if_neg below, if_neg (by omega)]
  · rw [free] at once range
    have inRange : pageNo < h.numPages := range pageNo (by simp)
    have notAgain : pageNo ∉ rest := (List.nodup_cons.mp once).1
    let next := { h with freePages := rest }
    have ran : allocatePage id d = (.ok pageNo, ((d.setHandle id next).setFile h.file
        (setPage (d.files h.file) pageNo default)).persist next) := by
      unfold allocatePage
      simp only [isOpen, free]
      rfl
    have isOpen' : (((d.setHandle id next).setFile h.file
        (setPage (d.files h.file) pageNo default)).persist next).relations id =
        some next := by simp
    refine ⟨_, _, ran, by simp [livePage_eq (p := ⟨id, pageNo⟩) isOpen, free], ?_⟩
    apply sets_of_touches sound (allocatePage_touches ran) isOpen isOpen'
    · simp only [next, DiskManager.persist_files, DiskManager.setFile_files]
      rw [update_self, length_setPage]
      omega
    · exact fun other member => range other (List.mem_cons_of_mem _ member)
    · exact (List.nodup_cons.mp once).2
    · intro other
      rw [livePage_eq (p := ⟨id, other⟩) isOpen', livePage_eq (p := ⟨id, other⟩) isOpen]
      simp only [next, free, DiskManager.persist_files, DiskManager.setFile_files,
        update_self, List.mem_cons, not_or]
      by_cases here : other = pageNo
      · subst here
        simp [inRange, notAgain, getElem?_setPage_self]
      · rw [if_neg here, getElem?_setPage (by omega), if_neg (Ne.symm here)]
        simp [here]

omit [Inhabited Page] in
private theorem trim_spec (numPages : Nat) (free : List Nat) (range : ∀ n ∈ free, n < numPages)
    (once : free.Nodup) :
    (trim numPages free).1 ≤ numPages ∧ (∀ n ∈ (trim numPages free).2, n ∈ free) ∧
      (trim numPages free).2.Nodup ∧
      (∀ n ∈ (trim numPages free).2, n < (trim numPages free).1) ∧
      ∀ n, n < (trim numPages free).1 ∧ n ∉ (trim numPages free).2 ↔
        n < numPages ∧ n ∉ free := by
  induction free generalizing numPages with
  | nil => simp [trim]
  | cons last rest ih =>
    have split := List.nodup_cons.mp once
    unfold trim
    split
    · rename_i atEnd
      have inside : ∀ n ∈ rest, n < numPages - 1 := by
        intro n member
        have below := range n (List.mem_cons_of_mem _ member)
        have apart : n ≠ last := fun same => split.1 (same ▸ member)
        omega
      obtain ⟨le, sub, nodup, below, same⟩ := ih (numPages - 1) inside split.2
      refine ⟨by omega, fun n member => List.mem_cons_of_mem _ (sub n member), nodup, below,
        fun n => (same n).trans ?_⟩
      rw [List.mem_cons, not_or]
      constructor
      · rintro ⟨lt, notIn⟩
        exact ⟨by omega, by omega, notIn⟩
      · rintro ⟨lt, apart, notIn⟩
        exact ⟨by omega, notIn⟩
    · exact ⟨le_rfl, fun _ member => member, once, range, fun _ => Iff.rfl⟩

theorem deallocatePage_live (sound : DiskSound d) (p : PageId) :
    (∃ d', deallocatePage p d = (.ok (), d') ∧ Sets p none d d') ∨
      ∃ what, deallocatePage p d = (.error what, d) ∧ livePage d p = none := by
  cases isOpen : d.relations p.relationId with
  | none =>
    right
    unfold deallocatePage
    simp only [isOpen]
    exact ⟨_, rfl, by simp [livePage, isOpen]⟩
  | some h =>
    by_cases past : h.numPages ≤ p.pageNo
    · right
      unfold deallocatePage
      simp only [isOpen, if_pos past]
      refine ⟨_, rfl, ?_⟩
      rw [livePage_eq isOpen, if_neg (by omega)]
    left
    have length := sound.inFile _ h isOpen
    have linked := sound.layout.linked _ h isOpen
    obtain ⟨freePages, chosen⟩ : ∃ freePages, freePages = if p.pageNo ∈ h.freePages then
      h.freePages else h.freePages.orderedInsert (· ≤ ·) p.pageNo := ⟨_, rfl⟩
    have member : ∀ n, n ∈ freePages ↔ n = p.pageNo ∨ n ∈ h.freePages := by
      intro n
      rw [chosen]
      split
      · rename_i already
        constructor
        · exact .inr
        · rintro (rfl | other)
          · exact already
          · exact other
      · exact List.mem_orderedInsert _
    have once : freePages.Nodup := by
      rw [chosen]
      split
      · exact sound.freeOnce _ h isOpen
      · rename_i fresh
        rw [(List.perm_orderedInsert _ _ _).nodup_iff]
        exact List.nodup_cons.mpr ⟨fresh, sound.freeOnce _ h isOpen⟩
    have range : ∀ n ∈ freePages, n < h.numPages := by
      intro n listed
      rcases (member n).mp listed with rfl | old
      · omega
      · exact sound.freeInRange _ h isOpen n old
    obtain ⟨le, -, nodup, below, same⟩ := trim_spec h.numPages freePages.reverse
      (by simpa using range) (by simpa using once)
    obtain ⟨trimmed, isTrimmed⟩ : ∃ trimmed, trimmed = trim h.numPages freePages.reverse :=
      ⟨_, rfl⟩
    rw [← isTrimmed] at le nodup below same
    let next : RelationHandle :=
      { h with numPages := trimmed.1, freePages := trimmed.2.reverse }
    obtain ⟨pages, trimPages, kept⟩ : ∃ pages : List Page,
        trimTrailingFreePages p.relationId { h with freePages := freePages } d =
          (.ok next, (d.setHandle p.relationId next).setFile h.file pages) ∧
        trimmed.1 ≤ pages.length ∧ ∀ n < trimmed.1, pages[n]? = (d.files h.file)[n]? := by
      unfold trimTrailingFreePages
      simp only [← isTrimmed]
      split
      · rename_i unchanged
        refine ⟨d.files h.file, ?_, by omega, fun _ _ => rfl⟩
        simp [DiskManager.setFile, DiskManager.setHandle, next, unchanged]
      · simp only [linked]
        refine ⟨_, rfl, ?_, fun n inside => ?_⟩
        · simp only [List.length_append, List.length_take, List.length_replicate]
          omega
        · have left : n < ((d.files h.file).take trimmed.1).length := by
            rw [List.length_take]
            omega
          rw [List.getElem?_append_left left, List.getElem?_take_of_lt inside]
    have ran : deallocatePage p d = (.ok (),
        ((d.setHandle p.relationId next).setFile h.file pages).persist next) := by
      unfold deallocatePage
      simp only [isOpen, if_neg past, ← chosen, trimPages]
    have isOpen' : (((d.setHandle p.relationId next).setFile h.file pages).persist
        next).relations p.relationId = some next := by simp
    refine ⟨_, ran, ?_⟩
    apply sets_of_touches sound (deallocatePage_touches sound.layout ran) isOpen isOpen'
    · simp only [DiskManager.persist_files, DiskManager.setFile_files, next]
      rw [update_self]
      exact kept.1
    · intro n listed
      exact below n (by simpa [next] using listed)
    · simpa [next] using nodup
    · intro n
      have free := same n
      rw [List.mem_reverse, member] at free
      rw [livePage_eq (p := ⟨p.relationId, n⟩) isOpen',
        livePage_eq (p := ⟨p.relationId, n⟩) isOpen]
      simp only [next, DiskManager.persist_files, DiskManager.setFile_files,
        update_self, List.mem_reverse, free, not_or]
      by_cases here : n = p.pageNo
      · simp [here]
      · rw [if_neg here]
        by_cases allocated : n < h.numPages ∧ n ∉ h.freePages
        · have stays : n < trimmed.1 := (free.mpr (by
            rw [not_or]
            exact ⟨allocated.1, here, allocated.2⟩)).1
          rw [if_pos ⟨allocated.1, here, allocated.2⟩, if_pos allocated, kept.2 n stays]
        · rw [if_neg allocated, if_neg fun ⟨lt, _, notIn⟩ => allocated ⟨lt, notIn⟩]

end Writes

end GraniteDb.Storage.LivePages
