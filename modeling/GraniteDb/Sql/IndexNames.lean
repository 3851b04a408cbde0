/- CREATE INDEX disturbs another index exactly when it takes the name of one. -/

import GraniteDb.Sql.CreateIndex

namespace GraniteDb.Sql.IndexNames

open Common.Types Common.Value Storage.DiskManager Buffer.PageFrames Sql.CreateIndex

section Traffic

variable {Page : Type} [Inhabited Page] {traffic : PageTraffic Page}

theorem buildEntries_rel (traffic : PageTraffic Page) (base : Nat) (entry : CatalogIndex)
    (R : BufferPool Page → BufferPool Page → Prop) (refl : ∀ s, R s s)
    (trans : ∀ s m s', R s m → R m s' → R s s')
    (calls : ∀ calls s, R s (runCalls traffic.victim entry.indexRelationId calls s).2)
    (scans : ∀ calls s, R s (runCalls traffic.victim base calls s).2) (rows : List (RID × Row))
    (s : BufferPool Page) : R s (buildEntries traffic base entry rows s).2 := by
  have new (s : BufferPool Page) :
      R s (newPage traffic.victim entry.indexRelationId s).2 := by
    have one := calls [.new] s
    rcases grown : newPage traffic.victim entry.indexRelationId s with ⟨_ | _, m⟩
    all_goals
      simp only [runCalls, PageCall.run, grown, Prod.map_apply, Except.map] at one
      exact one
  have initialized (s : BufferPool Page) : R s (initializeIfNeeded traffic entry s).2 := by
    unfold initializeIfNeeded
    have first := new s
    rcases grown : newPage traffic.victim entry.indexRelationId s with ⟨_ | _, m⟩
    all_goals
      rw [grown] at first
      simp only
    · exact first
    split
    · exact first
    have second := new m
    rcases grown' : newPage traffic.victim entry.indexRelationId m with ⟨_ | _, m'⟩
    all_goals
      rw [grown'] at second
      simp only
    · exact trans s m m' first second
    split
    · exact trans s m m' first second
    · exact trans s m' _ (trans s m m' first second) (calls _ m')
  have absent (entries : List (List Value × RID)) (key : List Value) (s : BufferPool Page) :
      R s (requireAbsent traffic entry entries key s).2 := by
    unfold requireAbsent
    split
    · split
      · exact refl s
      · have searched := calls (traffic.search entries key) s
        rcases ran : runCalls traffic.victim entry.indexRelationId (traffic.search entries key) s
          with ⟨_ | _, m⟩
        all_goals
          rw [ran] at searched
          simp only
        · exact searched
        · split <;> exact searched
    · exact refl s
  have entered (entries : List (List Value × RID)) (rid : RID) (row : Row) (s : BufferPool Page) :
      R s (enterRow traffic entry entries rid row s).2 := by
    unfold enterRow
    split
    · exact refl s
    · rename_i key _
      split
      · exact refl s
      · have checked := absent entries key s
        rcases ran : requireAbsent traffic entry entries key s with ⟨_ | _, m⟩
        all_goals
          rw [ran] at checked
          simp only
        · exact checked
        · split
          · exact checked
          · have inserted := calls (traffic.insert entries key rid) m
            rcases ran' : runCalls traffic.victim entry.indexRelationId
              (traffic.insert entries key rid) m with ⟨_ | _, m'⟩
            all_goals
              rw [ran'] at inserted
              exact trans s m m' checked inserted
  have looped (rows : List (RID × Row)) (entries : List (List Value × RID)) (s : BufferPool Page) :
      R s (enterRows traffic base entry rows entries s).2 := by
    induction rows generalizing entries s with
    | nil => exact refl s
    | cons stored rest ih =>
      obtain ⟨rid, row⟩ := stored
      unfold enterRows
      have scanned := scans (scanCalls [rid.pageNo]) s
      rcases ran : runCalls traffic.victim base (scanCalls [rid.pageNo]) s with ⟨_ | _, m⟩
      all_goals
        rw [ran] at scanned
        simp only
      · exact scanned
      · have one := entered entries rid row m
        rcases ran' : enterRow traffic entry entries rid row m with ⟨_ | entries', m'⟩
        all_goals
          rw [ran'] at one
          simp only
        · exact trans s m m' scanned one
        · exact trans s m' _ (trans s m m' scanned one) (ih entries' m')
  unfold buildEntries
  have first := initialized s
  rcases ran : initializeIfNeeded traffic entry s with ⟨_ | _, m⟩
  all_goals
    rw [ran] at first
    simp only
  · exact first
  · exact trans s m _ first (looped rows [] m)

omit [Inhabited Page] in
theorem registerIndex_pool (base : Nat) (entry : CatalogIndex) (s : Session Page) :
    (registerIndex base entry s).2.pool = s.pool := by
  unfold registerIndex
  split
  · rfl
  · split <;> rfl

omit [Inhabited Page] in
theorem registerIndexFile_state (base : Nat) (s : Session Page) :
    (registerIndexFile base s).2 = s := by
  unfold registerIndexFile
  split <;> rfl

theorem buildIndex_rel (traffic : PageTraffic Page) (base : Nat) (entry : CatalogIndex)
    (R : BufferPool Page → BufferPool Page → Prop) (refl : ∀ s, R s s)
    (trans : ∀ s m s', R s m → R m s' → R s s')
    (calls : ∀ calls s, R s (runCalls traffic.victim entry.indexRelationId calls s).2)
    (scans : ∀ calls s, R s (runCalls traffic.victim base calls s).2) (s : Session Page) :
    R s.pool (buildIndex traffic base entry s).2.pool := by
  have built := buildEntries_rel traffic base entry R refl trans calls scans (s.rows base) s.pool
  unfold buildIndex onPool
  rcases ran : buildEntries traffic base entry (s.rows base) s.pool with ⟨_ | _, m⟩
  all_goals
    rw [ran] at built
    simp only
  · exact built
  have registered := registerIndex_pool base entry { s with pool := m }
  rcases ran' : registerIndex base entry { s with pool := m } with ⟨_ | _, s₁⟩
  all_goals
    rw [ran'] at registered
    simp only at registered ⊢
  · rw [registered]
    exact built
  have same := registerIndexFile_state base s₁
  rcases ran'' : registerIndexFile base s₁ with ⟨_ | _, s₂⟩
  all_goals
    rw [ran''] at same
    simp only at same ⊢
    subst same
  · rw [registered]
    exact built
  unfold refreshStats
  split
  · rw [registered]
    exact built
  · rename_i numPages _
    refine trans s.pool m _ built ?_
    show R m (runCalls traffic.victim base (scanCalls (List.range numPages)) s₂.pool).2
    rw [registered]
    exact scans _ m

end Traffic

section Property

variable {Page : Type}

/-- An index has its backing file: the file is there, the index is open on it and no other
relation is. -/
structure HasFile (d : DiskManager Page) (index : CatalogIndex) : Prop where
  present : (d.directory index.indexFileName).isSome = true
  isOpen : ∃ h, d.relations index.indexRelationId = some h ∧ h.path = index.indexFileName ∧
    d.directory h.path = some h.file
  alone : ∀ id h, d.relations id = some h → h.path = index.indexFileName →
    id = index.indexRelationId

/-- An index has its backing file and its readers see the same pages as before. -/
structure Undisturbed (s s' : Session Page) (index : CatalogIndex) : Prop where
  hasFile : HasFile s'.pool.disk index
  view : ∀ pageNo, view s'.pool index.indexRelationId pageNo =
    Buffer.PageFrames.view s.pool index.indexRelationId pageNo

/-- Every registered index is undisturbed, and after an exception the catalog is the same. -/
def LeavesIndexes [Inhabited Page] (traffic : PageTraffic Page) (stmt : BoundCreateIndexStatement)
    (s : Session Page) : Prop :=
  let r := executeCreateIndex traffic stmt s
  (∀ rel ∈ s.catalog, ∀ index ∈ rel.indexes, Undisturbed s r.2 index) ∧
    ∀ what, r.1 = .error what → r.2.catalog = s.catalog

/-- A database whose relations are the heaps and the indexes of its catalog, each in its file. -/
structure WellStored (s : Session Page) : Prop where
  layout : Layout s.pool.disk
  readable : Readable s.pool
  clean : ∀ id, Stored id s.pool
  fresh : ∀ id h, s.pool.disk.relations id = some h → id < s.nextRelationId
  heaps : ∀ rel ∈ s.catalog, rel.relationId ∈ s.runtimeRelations ∧
    rel.relationId ∈ s.managedRelations ∧ rel.heapFileName = rel.relationName ++ ".heap" ∧
      ∃ h, s.pool.disk.relations rel.relationId = some h ∧ h.path = rel.heapFileName
  indexes : ∀ rel ∈ s.catalog, ∀ index ∈ rel.indexes,
    index.indexFileName = indexFile index.indexName ∧
      ∃ h, s.pool.disk.relations index.indexRelationId = some h ∧ h.path = index.indexFileName
  known : ∀ id h, s.pool.disk.relations id = some h →
    (∃ rel ∈ s.catalog, h.path = rel.heapFileName) ∨
      ∃ rel ∈ s.catalog, ∃ index ∈ rel.indexes, h.path = index.indexFileName

def NameUnused (s : Session Page) (name : String) : Prop :=
  ∀ rel ∈ s.catalog, ∀ index ∈ rel.indexes, index.indexName ≠ name

theorem heapFile_ne_indexFile (table name : String) : table ++ ".heap" ≠ indexFile name := by
  intro same
  have chars := congrArg (fun s : String => s.toList.getLast?) same
  simp [indexFile, String.toList_append, List.getLast?_append] at chars

theorem indexFile_inj {name name' : String} (same : indexFile name = indexFile name') :
    name = name' := by
  have chars := congrArg String.toList same
  simp only [indexFile, String.toList_append] at chars
  exact String.toList_inj.mp (List.append_cancel_right chars)

variable [Inhabited Page] {traffic : PageTraffic Page} {s : Session Page}

def opened (stmt : BoundCreateIndexStatement) (s : Session Page) : Session Page :=
  let path := indexFile stmt.indexName
  let disk := (truncateFile path s.pool.disk).setHandle s.nextRelationId
    ⟨path, (s.pool.disk.directory path).getD s.pool.disk.nextFile, 0, []⟩
  { s with nextRelationId := s.nextRelationId + 1, pool := { s.pool with disk := disk } }

theorem executeCreateIndex_cases {stmt : BoundCreateIndexStatement} {rel : RelationCatalogEntry}
    (found : (s.catalog.find? fun rel => rel.relationId = stmt.relationId) = some rel)
    (runtime : rel.relationId ∈ s.runtimeRelations) {r : Except String String} {s' : Session Page}
    (ran : executeCreateIndex traffic stmt s = (r, s')) :
    (∃ text, r = .ok text ∧ buildIndex traffic rel.relationId (newEntry stmt s.nextRelationId)
      (opened stmt s) = (.ok (), s')) ∨
    ∃ what m, r = .error what ∧ buildIndex traffic rel.relationId
        (newEntry stmt s.nextRelationId) (opened stmt s) = (.error what, m) ∧
      s' = { m with pool := dropNewIndex s.nextRelationId m.pool } := by
  unfold executeCreateIndex at ran
  simp only [found, createRelation_ok] at ran
  rw [if_neg (not_not.mpr runtime)] at ran
  rcases built : buildIndex traffic rel.relationId (newEntry stmt s.nextRelationId)
    (opened stmt s) with ⟨what | _, m⟩
  all_goals
    unfold opened at built
    simp only [built] at ran
    cases ran
  · exact .inr ⟨what, m, rfl, rfl, rfl⟩
  · exact .inl ⟨_, rfl, rfl⟩

variable {new id : Nat} {s : BufferPool Page}

theorem deletePages_isolated (other : new ≠ id) (pageNos : List Nat)
    (layout : Layout s.disk) (stored : Stored id s) :
    Isolated id s (deletePages new pageNos s) := by
  induction pageNos generalizing s with
  | nil => exact .refl layout stored
  | cons pageNo rest ih =>
    unfold deletePages
    have other' : (⟨new, pageNo⟩ : PageId).relationId ≠ id := other
    rcases deleted : deletePage ⟨new, pageNo⟩ s with ⟨_ | _, m⟩
    all_goals
      have isolated := deletePage_isolated layout stored other' deleted
      simp only
    · exact isolated
    · exact isolated.trans (ih isolated.layout isolated.stored)

theorem deletePages_samePaths (pageNos : List Nat) (s : BufferPool Page) :
    SamePaths s.disk (deletePages id pageNos s).disk := by
  induction pageNos generalizing s with
  | nil => exact fun _ => rfl
  | cons pageNo rest ih =>
    unfold deletePages
    rcases deleted : deletePage ⟨id, pageNo⟩ s with ⟨_ | _, m⟩
    all_goals
      have same := deletePage_samePaths deleted
      simp only
    · exact same
    · intro other
      rw [ih, same]

theorem deleteNewPages_isolated (other : new ≠ id) (layout : Layout s.disk)
    (stored : Stored id s) : Isolated id s (deleteNewPages new s) := by
  unfold deleteNewPages
  split
  · exact .refl layout stored
  · exact deletePages_isolated other _ layout stored

theorem deleteNewPages_samePaths (new : Nat) (s : BufferPool Page) :
    SamePaths s.disk (deleteNewPages new s).disk := by
  unfold deleteNewPages
  split
  · exact fun _ => rfl
  · exact deletePages_samePaths _ s

theorem dropNewIndex_keeps (other : new ≠ id) (layout : Layout s.disk)
    (stored : Stored id s) : Keeps id s (dropNewIndex new s) := by
  have isolated := deleteNewPages_isolated other layout stored
  have spares := destroyRelation_spares isolated.layout other.symm
  refine ⟨spares.relations.trans isolated.keeps.relations, fun h isOpen => ?_, fun pageNo => ?_⟩
  · exact (spares.directory h (isolated.keeps.relations.trans isOpen)).trans
      (isolated.keeps.directory h isOpen)
  · rw [← isolated.keeps.view pageNo]
    unfold view dropNewIndex
    simp only [spares.relations]
    cases isOpen : (deleteNewPages new s).disk.relations id with
    | none => rfl
    | some h => simp only [Option.bind_some, spares.files h isOpen]

theorem dropNewIndex_removes {path : String}
    (isOpen : (s.disk.relations new).map RelationHandle.path = some path) :
    (dropNewIndex new s).disk.directory path = none := by
  have still := (deleteNewPages_samePaths new s new).trans isOpen
  obtain ⟨h, isOpen', rfl⟩ := Option.map_eq_some_iff.mp still
  simp [dropNewIndex, destroyRelation, isOpen']

theorem buildIndex_catalog {base : Nat} {entry : CatalogIndex} {s s' : Session Page} {what : String}
    (readable : Readable s.pool) (managed : base ∈ s.managedRelations)
    (isOpen : ∃ h, s.pool.disk.relations base = some h)
    (ran : buildIndex traffic base entry s = (.error what, s')) : s'.catalog = s.catalog := by
  have built : Readable s.pool → Readable (buildEntries traffic base entry (s.rows base) s.pool).2 :=
    buildEntries_rel traffic base entry (fun s s' => Readable s → Readable s') (fun _ h => h)
      (fun _ _ _ first second h => second (first h))
      (fun calls s readable => runCalls_readable calls readable (Prod.mk.eta).symm)
      (fun calls s readable => runCalls_readable calls readable (Prod.mk.eta).symm) _ _
  have paths : SamePaths s.pool.disk
      (buildEntries traffic base entry (s.rows base) s.pool).2.disk :=
    buildEntries_rel traffic base entry (fun s s' => SamePaths s.disk s'.disk) (fun _ _ => rfl)
      (fun _ _ _ first second id => (second id).trans (first id))
      (fun calls s => runCalls_samePaths calls (Prod.mk.eta).symm)
      (fun calls s => runCalls_samePaths calls (Prod.mk.eta).symm) _ _
  unfold buildIndex onPool at ran
  rcases built' : buildEntries traffic base entry (s.rows base) s.pool with ⟨_ | _, m⟩
  all_goals
    rw [built'] at built paths
    simp only [built'] at ran
  · cases ran
    rfl
  rcases registered : registerIndex base entry { s with pool := m } with ⟨_ | _, s₁⟩
  · simp only [registered] at ran
    cases ran
    unfold registerIndex at registered
    split at registered
    · cases registered
      rfl
    · split at registered
      · cases registered
        rfl
      · cases registered
  · simp only [registered] at ran
    have pool₁ := registerIndex_pool base entry { s with pool := m }
    rw [registered] at pool₁
    have managed₁ : base ∈ s₁.managedRelations := by
      unfold registerIndex at registered
      split at registered
      · cases registered
      · split at registered
        · cases registered
        · cases registered
          exact managed
    have filed : registerIndexFile base s₁ = (.ok (), s₁) := if_pos managed₁
    obtain ⟨h, isOpen⟩ := isOpen
    have still := paths base
    rw [isOpen] at still
    obtain ⟨h', isOpen', _⟩ := Option.map_eq_some_iff.mp still
    simp only at pool₁ isOpen'
    obtain ⟨last, scanned⟩ := scanCalls_ok traffic.victim (built readable) isOpen'
      fun pageNo member => List.mem_range.mp member
    simp only [filed, refreshStats, pool₁, DiskManager.getNumPages, isOpen', onPool,
      scanned] at ran
    cases ran

end Property

section Result

variable {Page : Type} [Inhabited Page] {traffic : PageTraffic Page} {s : Session Page}
  {stmt : BoundCreateIndexStatement}

omit [Inhabited Page] in
theorem table_of_bound {catalog : List RelationCatalogEntry} {ast : CreateIndexStatementAST}
    (bound : bindCreateIndex catalog ast = .ok stmt) :
    stmt.indexName = ast.indexName ∧
      ∃ rel ∈ catalog, (catalog.find? fun rel => rel.relationId = stmt.relationId) = some rel := by
  unfold bindCreateIndex at bound
  split at bound
  · cases bound
  · rename_i rel found
    cases columns : bindKeyColumns rel.schema ast.columnNames with
    | error what =>
      rw [columns] at bound
      cases bound
    | ok cols =>
      rw [columns] at bound
      cases bound
      have some_ : (catalog.find? fun other => other.relationId = rel.relationId).isSome = true :=
        List.find?_isSome.mpr ⟨rel, List.mem_of_find?_eq_some found, by simp⟩
      obtain ⟨other, found'⟩ := Option.isSome_iff_exists.mp some_
      exact ⟨rfl, other, List.mem_of_find?_eq_some found', found'⟩

omit [Inhabited Page] in
theorem WellStored.free (stored : WellStored s) (unused : NameUnused s stmt.indexName) :
    ∀ id h, s.pool.disk.relations id = some h → h.path ≠ indexFile stmt.indexName := by
  intro id h isOpen same
  rcases stored.known id h isOpen with ⟨rel, inCatalog, path⟩ | ⟨rel, inCatalog, index, listed, path⟩
  · rw [path, (stored.heaps rel inCatalog).2.2.1] at same
    exact heapFile_ne_indexFile _ _ same
  · rw [path, (stored.indexes rel inCatalog index listed).1] at same
    exact unused rel inCatalog index listed (indexFile_inj same)

variable {rel rel' : RelationCatalogEntry} {h : RelationHandle} {id : Nat}

omit [Inhabited Page] in
theorem WellStored.apart (stored : WellStored s) (inCatalog : rel ∈ s.catalog)
    (inCatalog' : rel' ∈ s.catalog) {index : CatalogIndex} (listed : index ∈ rel'.indexes) :
    rel.relationId ≠ index.indexRelationId := by
  intro same
  obtain ⟨_, _, name, h, isOpen, path⟩ := stored.heaps rel inCatalog
  obtain ⟨name', h', isOpen', path'⟩ := stored.indexes rel' inCatalog' index listed
  rw [same, isOpen'] at isOpen
  cases isOpen
  refine heapFile_ne_indexFile rel.relationName index.indexName ?_
  rw [← name, ← name', ← path, ← path']

omit [Inhabited Page] in
theorem opened_spares (stored : WellStored s) (unused : NameUnused s stmt.indexName)
    (isOpen : s.pool.disk.relations id = some h) :
    Spares id s.pool.disk (opened stmt s).pool.disk :=
  createRelation_spares stored.layout (stored.free unused) (Nat.ne_of_lt (stored.fresh id h isOpen))

omit [Inhabited Page] in
theorem opened_isolated (stored : WellStored s) (unused : NameUnused s stmt.indexName)
    (isOpen : s.pool.disk.relations id = some h) :
    Isolated id s.pool (opened stmt s).pool := by
  have layout : Layout (opened stmt s).pool.disk :=
    createRelation_layout stored.layout (stored.free unused)
  exact isolated_of_spares layout (stored.clean id) (opened_spares stored unused isOpen) fun _ => rfl

omit [Inhabited Page] in
theorem opened_readable (stored : WellStored s) (unused : NameUnused s stmt.indexName) :
    Readable (opened stmt s).pool := by
  have wasOpen {id : Nat} {h : RelationHandle}
      (isOpen : (opened stmt s).pool.disk.relations id = some h) :
      (h.numPages = 0 ∧ h.freePages = []) ∨ s.pool.disk.relations id = some h := by
    by_cases here : id = s.nextRelationId
    · subst here
      simp only [opened, DiskManager.setHandle_relations, Function.update_self] at isOpen
      cases isOpen
      exact .inl ⟨rfl, rfl⟩
    · refine .inr ?_
      rw [← isOpen]
      exact (Function.update_of_ne here _ _).symm
  refine ⟨fun id h isOpen => ?_, fun id h isOpen => ?_, fun pageId frame held => ?_⟩
  · rcases wasOpen isOpen with ⟨empty, _⟩ | before
    · omega
    · rw [(opened_spares stored unused before).files h before]
      exact stored.readable.inFile id h before
  · rcases wasOpen isOpen with ⟨_, empty⟩ | before
    · simp [empty]
    · exact stored.readable.isFree id h before
  · obtain ⟨h, isOpen, inRange⟩ := stored.readable.inRange pageId frame held
    exact ⟨h, (opened_spares stored unused isOpen).relations.trans isOpen, inRange⟩

theorem executeCreateIndex_keeps (stored : WellStored s) (unused : NameUnused s stmt.indexName)
    (inCatalog : rel ∈ s.catalog)
    (found : (s.catalog.find? fun rel => rel.relationId = stmt.relationId) = some rel)
    (inCatalog' : rel' ∈ s.catalog) {index : CatalogIndex} (listed : index ∈ rel'.indexes)
    {r : Except String String} {s' : Session Page}
    (ran : executeCreateIndex traffic stmt s = (r, s')) :
    Layout s'.pool.disk ∧ Keeps index.indexRelationId s.pool s'.pool := by
  obtain ⟨_, h, isOpen, path⟩ := stored.indexes rel' inCatalog' index listed
  have isNew : s.nextRelationId ≠ index.indexRelationId :=
    Nat.ne_of_gt (stored.fresh _ h isOpen)
  have isTable := stored.apart inCatalog inCatalog' listed
  have first := opened_isolated stored unused isOpen
  have built := buildIndex_rel traffic rel.relationId (newEntry stmt s.nextRelationId)
    (fun m m' => Layout m.disk → Stored index.indexRelationId m →
      Isolated index.indexRelationId m m')
    (fun m layout stored => .refl layout stored)
    (fun _ _ _ one two layout stored =>
      (one layout stored).trans (two (one layout stored).layout (one layout stored).stored))
    (fun calls m layout stored => runCalls_isolated isNew calls layout stored Prod.mk.eta.symm)
    (fun calls m layout stored => runCalls_isolated isTable calls layout stored Prod.mk.eta.symm)
    (opened stmt s) first.layout first.stored
  rcases executeCreateIndex_cases found (stored.heaps rel inCatalog).1 ran with
    ⟨text, _, ran'⟩ | ⟨what, m, _, ran', rfl⟩
  all_goals
    rw [ran'] at built
    have whole := first.trans built
  · exact ⟨whole.layout, whole.keeps⟩
  · have dropped := dropNewIndex_keeps isNew whole.layout whole.stored
    refine ⟨destroyRelation_layout (deleteNewPages_isolated isNew whole.layout whole.stored).layout
      _, dropped.relations.trans whole.keeps.relations, fun g isOpen' => ?_, fun pageNo =>
        (dropped.view pageNo).trans (whole.keeps.view pageNo)⟩
    exact (dropped.directory g (whole.keeps.relations.trans isOpen')).trans
      (whole.keeps.directory g isOpen')

/-- `CREATE INDEX` leaves the registered indexes and, when it throws, the catalog as they were
exactly when no registered index has the name. -/
theorem leavesIndexes_iff_nameUnused (stored : WellStored s) {ast : CreateIndexStatementAST}
    (bound : bindCreateIndex s.catalog ast = .ok stmt) :
    LeavesIndexes traffic stmt s ↔ NameUnused s ast.indexName := by
  obtain ⟨name, rel, inCatalog, found⟩ := table_of_bound bound
  rw [← name]
  have runtime := (stored.heaps rel inCatalog).1
  unfold LeavesIndexes
  rcases ran : executeCreateIndex traffic stmt s with ⟨r, s'⟩
  simp only
  constructor
  · rintro ⟨leaves, _⟩ rel' inCatalog' index listed taken
    obtain ⟨file, h, isOpen, path⟩ := stored.indexes rel' inCatalog' index listed
    rw [taken] at file
    have hasFile := (leaves rel' inCatalog' index listed).hasFile
    have paths := buildIndex_rel traffic rel.relationId (newEntry stmt s.nextRelationId)
      (fun m m' => SamePaths m.disk m'.disk) (fun _ _ => rfl)
      (fun _ _ _ one two id => (two id).trans (one id))
      (fun calls _ => runCalls_samePaths calls Prod.mk.eta.symm)
      (fun calls _ => runCalls_samePaths calls Prod.mk.eta.symm) (opened stmt s)
    have isOpen' : ((opened stmt s).pool.disk.relations s.nextRelationId).map RelationHandle.path =
        some (indexFile stmt.indexName) := by
      simp [opened]
    rcases executeCreateIndex_cases found runtime ran with ⟨text, _, ran'⟩ | ⟨what, m, _, ran', rfl⟩
    all_goals
      rw [ran'] at paths
      have still := (paths s.nextRelationId).trans isOpen'
    · obtain ⟨g, isOpen'', path'⟩ := Option.map_eq_some_iff.mp still
      have same := hasFile.alone _ g isOpen'' (path'.trans file.symm)
      have older := stored.fresh _ h isOpen
      omega
    · have present := hasFile.present
      rw [file] at present
      simp only [dropNewIndex_removes still, Option.isSome_none, Bool.false_eq_true] at present
  · intro unused
    refine ⟨fun rel' inCatalog' index listed => ?_, ?_⟩
    · obtain ⟨layout, keeps⟩ := executeCreateIndex_keeps stored unused inCatalog found inCatalog'
        listed ran
      obtain ⟨_, h, isOpen, path⟩ := stored.indexes rel' inCatalog' index listed
      have after := keeps.relations.trans isOpen
      have linked := layout.linked _ h after
      refine ⟨⟨?_, ⟨h, after, path, linked⟩, fun id g isOpen' samePath => ?_⟩, keeps.view⟩
      · rw [← path, linked]
        rfl
      · exact layout.apart id _ g h isOpen' after (samePath.trans path.symm)
    · rintro what rfl
      rcases executeCreateIndex_cases found runtime ran with ⟨_, failed, _⟩ | ⟨_, m, _, ran', rfl⟩
      · cases failed
      · obtain ⟨_, managed, _, h, isOpen, _⟩ := stored.heaps rel inCatalog
        have still := (opened_spares stored unused isOpen).relations.trans isOpen
        have same : m.catalog = (opened stmt s).catalog :=
          buildIndex_catalog (opened_readable stored unused) managed ⟨h, still⟩ ran'
        exact same

def plainTraffic : PageTraffic Nat := ⟨fun _ => none, fun _ => 1, fun _ => 2, fun _ _ => [],
  fun _ _ _ => []⟩

/-- A table `a` without rows, with an index `i` on its column `x`. -/
def oneIndex : Session Nat where
  catalog := [⟨1, "a", "a.heap", [⟨⟨"x", .int64⟩, false, 0⟩],
    [⟨⟨"i", 2, [⟨0, .int64, 0, false⟩], false, .notSupported, some (.btree .int64 0)⟩, "i.idx"⟩]⟩]
  runtimeRelations := [1]
  managedRelations := [1]
  nextRelationId := 3
  rows _ := []
  pool :=
    { disk :=
        { directory := fun path =>
            if path = "a.heap" then some 0 else if path = "i.idx" then some 1 else none
          files := fun file => if file = 1 then [7, 8] else []
          nextFile := 2
          allocatorStates := fun _ => none
          relations := fun id =>
            if id = 1 then some ⟨"a.heap", 0, 0, []⟩
            else if id = 2 then some ⟨"i.idx", 1, 2, []⟩ else none }
      frames := fun _ => none
      clock := 0 }

theorem oneIndex_relations (isOpen : oneIndex.pool.disk.relations id = some h) :
    (id = 1 ∧ h = ⟨"a.heap", 0, 0, []⟩) ∨ (id = 2 ∧ h = ⟨"i.idx", 1, 2, []⟩) := by
  simp only [oneIndex] at isOpen
  split at isOpen
  · exact .inl ⟨‹_›, (Option.some.inj isOpen).symm⟩
  · split at isOpen
    · exact .inr ⟨‹_›, (Option.some.inj isOpen).symm⟩
    · cases isOpen

theorem oneIndex_directory {path : String} {file : Nat}
    (leads : oneIndex.pool.disk.directory path = some file) :
    (path = "a.heap" ∧ file = 0) ∨ (path = "i.idx" ∧ file = 1) := by
  simp only [oneIndex] at leads
  split at leads
  · exact .inl ⟨‹_›, (Option.some.inj leads).symm⟩
  · split at leads
    · exact .inr ⟨‹_›, (Option.some.inj leads).symm⟩
    · cases leads

theorem oneIndex_wellStored : WellStored oneIndex where
  layout :=
    { linked := by
        intro id h isOpen
        rcases oneIndex_relations isOpen with ⟨_, rfl⟩ | ⟨_, rfl⟩ <;> rfl
      apart := by
        intro id id' h h' isOpen isOpen' same
        rcases oneIndex_relations isOpen with ⟨rfl, rfl⟩ | ⟨rfl, rfl⟩
        all_goals
          rcases oneIndex_relations isOpen' with ⟨rfl, rfl⟩ | ⟨rfl, rfl⟩
          all_goals first | rfl | simp at same
      single := by
        intro path path' file leads leads'
        rcases oneIndex_directory leads with ⟨rfl, rfl⟩ | ⟨rfl, rfl⟩
        all_goals
          rcases oneIndex_directory leads' with ⟨rfl, same⟩ | ⟨rfl, same⟩
          all_goals first | rfl | cases same
      known := by
        intro path file leads
        rcases oneIndex_directory leads with ⟨_, rfl⟩ | ⟨_, rfl⟩ <;> decide }
  readable :=
    { inFile := by
        intro id h isOpen
        rcases oneIndex_relations isOpen with ⟨_, rfl⟩ | ⟨_, rfl⟩ <;> decide
      isFree := by
        intro id h isOpen
        rcases oneIndex_relations isOpen with ⟨_, rfl⟩ | ⟨_, rfl⟩ <;> simp
      inRange := by
        intro pageId frame held
        cases held }
  clean := fun id =>
    { inFile := by
        intro h isOpen
        rcases oneIndex_relations isOpen with ⟨_, rfl⟩ | ⟨_, rfl⟩ <;> decide
      inRange := by
        intro pageNo frame held
        cases held
      clean := by
        intro pageNo frame held
        cases held }
  fresh := by
    intro id h isOpen
    rcases oneIndex_relations isOpen with ⟨rfl, _⟩ | ⟨rfl, _⟩ <;> decide
  heaps := by
    intro rel inCatalog
    obtain rfl := List.mem_singleton.mp inCatalog
    exact ⟨by decide, by decide, by decide, _, rfl, rfl⟩
  indexes := by
    intro rel inCatalog index listed
    obtain rfl := List.mem_singleton.mp inCatalog
    obtain rfl := List.mem_singleton.mp listed
    exact ⟨by decide, _, rfl, rfl⟩
  known := by
    intro id h isOpen
    rcases oneIndex_relations isOpen with ⟨_, rfl⟩ | ⟨_, rfl⟩
    · exact .inl ⟨_, List.mem_cons_self, rfl⟩
    · exact .inr ⟨_, List.mem_cons_self, _, List.mem_cons_self, rfl⟩

/-- `CREATE INDEX j ON a (x)` leaves `i` alone. -/
theorem leavesIndexes_otherName :
    LeavesIndexes plainTraffic ⟨false, "j", "a", 1, [⟨0, .int64, 0, false⟩]⟩ oneIndex := by
  have bound : bindCreateIndex oneIndex.catalog ⟨false, "j", "a", ["x"]⟩ =
      .ok ⟨false, "j", "a", 1, [⟨0, .int64, 0, false⟩]⟩ := by
    decide
  exact (leavesIndexes_iff_nameUnused oneIndex_wellStored bound).mpr (by
    unfold NameUnused
    decide)

/-- `CREATE INDEX i ON a (x)` is refused because of the name, and the cleanup removes the file of
the index that has it. -/
theorem createIndex_removes_file : ¬∀ ast stmt, bindCreateIndex oneIndex.catalog ast = .ok stmt →
    LeavesIndexes plainTraffic stmt oneIndex := by
  intro claim
  have leaves := (claim ⟨false, "i", "a", ["x"]⟩ ⟨false, "i", "a", 1, [⟨0, .int64, 0, false⟩]⟩
    (by decide)).1 _ List.mem_cons_self _ List.mem_cons_self
  have present := leaves.hasFile.present
  have removed : (executeCreateIndex plainTraffic ⟨false, "i", "a", 1, [⟨0, .int64, 0, false⟩]⟩
      oneIndex).2.pool.disk.directory "i.idx" = none := by
    decide +kernel
  rw [removed] at present
  cases present

end Result

end GraniteDb.Sql.IndexNames
