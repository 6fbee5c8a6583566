import GnomeBuildMeta.Containers.Replacing
import GnomeBuildMeta.Cve.EtagCache

/-!
# The tables of the database

`data-2.db` keeps the vulnerabilities beside the etags.  A run inserts the rows
of each feed that it reads into an open transaction, and they are there for good
with the commit.  The tables are compared with the plain list of the feeds that
completed runs have read.
-/

namespace GnomeBuildMeta.Cve

open Containers Control

abbrev Feed := List Vuln × List ProductVuln

/-! ## Rows -/

/-- `cve (id TEXT UNIQUE, summary TEXT, score TEXT)`; NULL is `none`. -/
structure CveRow where
  id : Option Text
  summary : Option Text
  score : Option Text
  deriving DecidableEq

/-- `product_vuln (..., UNIQUE(cve_id, name, vendor, version))` -/
structure ProductRow where
  cveId : Option Text
  name : Text
  vendor : Text
  version : Text
  deriving DecidableEq

/-- NULL is no key. -/
def CveRow.key (row : CveRow) : Option Text := row.id

def ProductRow.key (row : ProductRow) : Option (Text × Text × Text × Text) :=
  row.cveId.map fun id => (id, row.name, row.vendor, row.version)

structure Tables where
  cve : List CveRow
  productVuln : List ProductRow

def Tables.empty : Tables := ⟨[], []⟩

section Columns

variable (real : Option Rat → Option Text)

/-- What a column of texts holds for a value; `real` is the text that it has for a float. -/
def column : Json → Option Text
  | .null => none
  | .bool value => some [if value then '1' else '0']
  | .int value => some (toString value).toList
  | .float value => real value
  | .string text => some text
  | .array _ | .object _ => none

def Vuln.row (vuln : Vuln) : CveRow := ⟨column real vuln.cveId, column real vuln.summary, column real vuln.score⟩

def ProductVuln.row (product : ProductVuln) : ProductRow :=
  ⟨column real product.cveId, product.name, product.vendor, product.version⟩

/-- The rows of a feed, by `INSERT OR REPLACE`. -/
def Tables.insert (tables : Tables) (feed : Feed) : Tables where
  cve := insertAll CveRow.key tables.cve (feed.1.map (Vuln.row real))
  productVuln := insertAll ProductRow.key tables.productVuln (feed.2.map (ProductVuln.row real))

end Columns

/-! ## Transactions -/

section Transactions

variable (decode : Body → Option Json)

/-- What the file of a year has. -/
def System.feed (s : System) (year : Text) : Option Feed :=
  ((s.disk (cacheName year)).bind decode).bind fun tree => (insertFeed tree).toOption

/-- What the run that is under way reads next. -/
def System.feedAtHand (s : System) : Option Feed :=
  match s.process.map Process.phase with
  | some (.reading year _) => s.feed decode year
  | _ => none

/-- The database holds `T`, in which feeds are inserted. -/
structure Database (T : Type) where
  system : System
  tables : T
  /-- As the open transaction sees them. -/
  pending : T

variable {T : Type} (insert : T → Feed → T)

def Database.start (disk : Text → Option Body) (empty : T) : Database T := ⟨.start disk, empty, empty⟩

/-- The connection sees the tables as they are committed. -/
def Database.act (s : Database T) (a : Action) : Option (Database T) :=
  (Cve.act decode s.system a).map fun system =>
    { system
      tables := match a with
        | .commit => s.pending
        | _ => s.tables
      pending := match a with
        | .start _ => s.tables
        | .load => (s.system.feedAtHand decode).elim s.pending (insert s.pending)
        | _ => s.pending }

def Database.Step (s : Database T) (a : Action) (s' : Database T) : Prop := s.act decode insert a = some s'

/-- The list of the feeds that have been read. -/
def append (feeds : List Feed) (feed : Feed) : List Feed := feeds ++ [feed]

end Transactions

variable {decode : Body → Option Json} {T : Type} {insert : T → Feed → T}

theorem Database.Step.system {s s' : Database T} {a : Action} (step : s.Step decode insert a s') :
    Cve.Step decode s.system a s'.system := by
  obtain ⟨system, moved, rfl⟩ := Option.map_eq_some_iff.mp step
  exact moved

/-! ## The feeds behind the tables -/

/-- The tables that all the feeds give. -/
def Database.inserted (insert : T → Feed → T) (empty : T) (s : Database (List Feed)) : Database T :=
  ⟨s.system, s.tables.foldl insert empty, s.pending.foldl insert empty⟩

/-- A step of the tables is one of the feeds behind them. -/
theorem Database.Step.feeds {empty : T} {s : Database (List Feed)} {a : Action} {s' : Database T}
    (step : (s.inserted insert empty).Step decode insert a s') :
    ∃ after, s.Step decode append a after ∧ after.inserted insert empty = s' := by
  obtain ⟨system, moved, rfl⟩ := Option.map_eq_some_iff.mp step
  refine ⟨_, Option.map_eq_some_iff.mpr ⟨system, moved, rfl⟩, ?_⟩
  have loaded : ((s.system.feedAtHand decode).elim s.pending (append s.pending)).foldl insert empty =
      (s.system.feedAtHand decode).elim (s.pending.foldl insert empty)
        (insert (s.pending.foldl insert empty)) := by
    cases s.system.feedAtHand decode with
    | none => rfl
    | some feed => exact List.foldl_append
  cases a with
  | load => simp only [Database.inserted, loaded]
  | start _ | answer _ | receive _ | endOfBody | bodyError _ | commit | close | crash => rfl

/-- A history of the tables is one of the feeds, whatever steps are allowed. -/
theorem exists_feeds (allowed : System → Action → Prop) {disk : Text → Option Body} {empty : T}
    {actions : List Action} {s : Database T}
    (run : Run (fun s a s' => allowed s.system a ∧ Database.Step decode insert s a s')
      (.start disk empty) actions s) :
    ∃ log, Run (fun s a s' => allowed s.system a ∧ Database.Step decode append s a s')
        (.start disk []) actions log ∧ log.inserted insert empty = s := by
  refine Run.simulated (Database.inserted insert empty) (fun log a s' step => ?_) run
  obtain ⟨after, moved, same⟩ := step.2.feeds
  exact ⟨after, ⟨step.1, moved⟩, same⟩

/-! ## Which feeds these are -/

section Reading

variable {disk : Text → Option Body} {actions : List Action} {feed : Feed}

/-- A run has read the feed, and no other one has started since. -/
def ReadIn (decode : Body → Option Json) (disk : Text → Option Body) (actions : List Action)
    (feed : Feed) : Prop :=
  ∃ pre mid system, actions = pre ++ .load :: mid ∧
    pre.foldlM (Cve.act decode) (System.start disk) = some system ∧
    system.feedAtHand decode = some feed ∧ ∀ thisYear, .start thisYear ∉ mid

/-- A run has read the feed and has come to its commit. -/
def ReadAndCommitted (decode : Body → Option Json) (disk : Text → Option Body) (actions : List Action)
    (feed : Feed) : Prop :=
  ∃ pre post, actions = pre ++ .commit :: post ∧ ReadIn decode disk pre feed

theorem readIn_snoc {a : Action} : ReadIn decode disk (actions ++ [a]) feed ↔
    (ReadIn decode disk actions feed ∧ ∀ thisYear, a ≠ .start thisYear) ∨
      a = .load ∧ ∃ system, actions.foldlM (Cve.act decode) (System.start disk) = some system ∧
        system.feedAtHand decode = some feed := by
  constructor
  · rintro ⟨pre, mid, system, split, computed, found, noStart⟩
    rcases snoc_eq_append_cons split with ⟨_, rfl, same⟩ | ⟨mid', rfl, rfl⟩
    · exact Or.inr ⟨same.symm, system, computed, found⟩
    · refine Or.inl ⟨⟨pre, mid', system, rfl, computed, found, fun thisYear inside =>
        noStart thisYear (List.mem_append_left _ inside)⟩, ?_⟩
      rintro thisYear rfl
      exact noStart thisYear (List.mem_append_right _ List.mem_cons_self)
  · rintro (⟨⟨pre, mid, system, rfl, computed, found, noStart⟩, other⟩ | ⟨rfl, system, computed, found⟩)
    · refine ⟨pre, mid ++ [a], system, by simp, computed, found, fun thisYear inside => ?_⟩
      rcases List.mem_append.mp inside with before | last
      · exact noStart thisYear before
      · exact other thisYear (List.mem_singleton.mp last).symm
    · exact ⟨actions, [], system, rfl, computed, found, fun _ => List.not_mem_nil⟩

theorem readAndCommitted_snoc {a : Action} : ReadAndCommitted decode disk (actions ++ [a]) feed ↔
    ReadAndCommitted decode disk actions feed ∨ a = .commit ∧ ReadIn decode disk actions feed := by
  constructor
  · rintro ⟨pre, post, split, read⟩
    rcases snoc_eq_append_cons split with ⟨_, rfl, same⟩ | ⟨post', rfl, rfl⟩
    · exact Or.inr ⟨same.symm, read⟩
    · exact Or.inl ⟨pre, post', rfl, read⟩
  · rintro (⟨pre, post, rfl, read⟩ | ⟨rfl, read⟩)
    · exact ⟨pre, post ++ [a], by simp, read⟩
    · exact ⟨actions, [], rfl, read⟩

/-- Both lists are explained by what has happened. -/
structure Database.Explained (decode : Body → Option Json) (disk : Text → Option Body)
    (actions : List Action) (s : Database (List Feed)) : Prop where
  system : actions.foldlM (Cve.act decode) (System.start disk) = some s.system
  tables : ∀ feed, feed ∈ s.tables ↔ ReadAndCommitted decode disk actions feed
  pending : ∀ feed, feed ∈ s.pending ↔
    ReadAndCommitted decode disk actions feed ∨ ReadIn decode disk actions feed

theorem Database.Explained.step {s s' : Database (List Feed)} {a : Action}
    (explained : s.Explained decode disk actions) (step : s.Step decode append a s') :
    s'.Explained decode disk (actions ++ [a]) := by
  obtain ⟨system, moved, rfl⟩ := Option.map_eq_some_iff.mp step
  refine ⟨?_, fun feed => ?_, fun feed => ?_⟩
  · rw [List.foldlM_append, explained.system]
    simpa using moved
  · rw [readAndCommitted_snoc]
    cases a with
    | commit => simp [explained.pending feed]
    | start _ | answer _ | receive _ | endOfBody | bodyError _ | load | close | crash =>
        simp [explained.tables feed]
  · rw [readAndCommitted_snoc, readIn_snoc, explained.system]
    cases a with
    | start _ => simp [explained.tables feed]
    | load =>
        have read : feed ∈ (s.system.feedAtHand decode).elim s.pending (append s.pending) ↔
            feed ∈ s.pending ∨ s.system.feedAtHand decode = some feed := by
          cases s.system.feedAtHand decode with
          | none => simp
          | some other => simp [append, eq_comm]
        simp [read, explained.pending feed, or_assoc]
    | commit => simp [explained.pending feed]
    | answer _ | receive _ | endOfBody | bodyError _ | close | crash =>
        simp [explained.pending feed]

/-- The list has the feeds that completed runs have read. -/
theorem mem_log_iff {log : Database (List Feed)}
    (run : Run (Database.Step decode append) (.start disk []) actions log) (feed : Feed) :
    feed ∈ log.tables ↔ ReadAndCommitted decode disk actions feed := by
  have explained : log.Explained decode disk actions := by
    refine run.invariant (I := fun actions log => log.Explained decode disk actions) ?_
      fun _ _ _ _ before step => before.step step
    have nothing : ∀ feed, ¬ ReadIn decode disk [] feed ∧ ¬ ReadAndCommitted decode disk [] feed := by
      intro feed
      constructor
      · rintro ⟨pre, mid, _, impossible, _⟩
        simp at impossible
      · rintro ⟨pre, post, impossible, _⟩
        simp at impossible
    exact ⟨rfl, fun feed => by simp [Database.start, nothing feed],
      fun feed => by simp [Database.start, nothing feed]⟩
  exact explained.tables feed

end Reading

variable {real : Option Rat → Option Text}

theorem inserted_cve (feeds : List Feed) : (feeds.foldl (Tables.insert real) .empty).cve =
    insertAll CveRow.key [] (feeds.flatMap fun feed => feed.1.map (Vuln.row real)) := by
  induction feeds using List.reverseRecOn with
  | nil => rfl
  | append_singleton feeds feed ih =>
      rw [List.foldl_append, List.flatMap_append, insertAll_append, ← ih, List.flatMap_singleton]
      rfl

theorem inserted_productVuln (feeds : List Feed) : (feeds.foldl (Tables.insert real) .empty).productVuln =
    insertAll ProductRow.key [] (feeds.flatMap fun feed => feed.2.map (ProductVuln.row real)) := by
  induction feeds using List.reverseRecOn with
  | nil => rfl
  | append_singleton feeds feed ih =>
      rw [List.foldl_append, List.flatMap_append, insertAll_append, ← ih, List.flatMap_singleton]
      rfl

theorem ProductRow.key_whole (a b : ProductRow) (same : a.key = b.key) (keyed : a.key.isSome = true) :
    a = b := by
  obtain ⟨id, name, vendor, version⟩ := a
  obtain ⟨id', name', vendor', version'⟩ := b
  cases id with
  | none => cases keyed
  | some id =>
      cases id' with
      | none => cases same
      | some id' =>
          simp only [ProductRow.key, Option.map_some, Option.some.injEq, Prod.mk.injEq] at same
          obtain ⟨rfl, rfl, rfl, rfl⟩ := same
          rfl

/-- Every vulnerability of a feed that was read has a row, and every product of it its own. -/
theorem rows_of_feed {feeds : List Feed} {feed : Feed} (read : feed ∈ feeds) :
    (∀ vuln ∈ feed.1, ∃ row ∈ (feeds.foldl (Tables.insert real) .empty).cve,
      row.id = column real vuln.cveId) ∧
      ∀ product ∈ feed.2, product.row real ∈ (feeds.foldl (Tables.insert real) .empty).productVuln := by
  rw [inserted_cve, inserted_productVuln]
  constructor
  · intro vuln inside
    have listed : vuln.row real ∈ feeds.flatMap fun feed => feed.1.map (Vuln.row real) :=
      List.mem_flatMap.mpr ⟨feed, read, List.mem_map_of_mem inside⟩
    exact exists_row_of_mem listed
  · intro product inside
    refine (mem_insertAll_of_whole ProductRow.key_whole).mpr (List.mem_flatMap.mpr ⟨feed, read, ?_⟩)
    exact List.mem_map_of_mem inside

/--
In every history the tables have what the feeds of the completed runs have: of
each vulnerability the row that came last, and all products that ever came.  The
log lists these feeds in the order in which they were read.
-/
theorem tables_of_feeds {disk : Text → Option Body} {actions : List Action} {s : Database Tables}
    (run : Run (Database.Step decode (Tables.insert real)) (.start disk .empty) actions s) :
    ∃ log, Run (Database.Step decode append) (.start disk []) actions log ∧ log.system = s.system ∧
      (∀ feed, feed ∈ log.tables ↔ ReadAndCommitted decode disk actions feed) ∧
      (∀ row, row ∈ s.tables.cve ↔ ∃ before after,
        (log.tables.flatMap fun feed => feed.1.map (Vuln.row real)) = before ++ row :: after ∧
          ∀ later ∈ after, later.id = row.id → row.id = none) ∧
      ∀ row, row ∈ s.tables.productVuln ↔
        ∃ feed ∈ log.tables, ∃ product ∈ feed.2, product.row real = row := by
  obtain ⟨log, followed, rfl⟩ := exists_feeds (fun _ _ => True)
    (run.mono fun _ _ _ step => ⟨True.intro, step⟩)
  have same := followed.mono fun _ _ _ step => step.2
  refine ⟨log, same, rfl, mem_log_iff same, fun row => ?_, fun row => ?_⟩
  · rw [Database.inserted, inserted_cve, mem_insertAll_iff]
    refine exists_congr fun before => exists_congr fun after => and_congr_right fun _ => ?_
    refine forall₂_congr fun later _ => ?_
    rw [Conflict, CveRow.key, CveRow.key, eq_comm, not_and, Bool.not_eq_true, Option.isSome_eq_false_iff,
      Option.isNone_iff_eq_none]
  · rw [Database.inserted, inserted_productVuln, mem_insertAll_of_whole ProductRow.key_whole]
    simp only [List.mem_flatMap, List.mem_map]

/-! ## One vulnerability -/

def oneItem : Json :=
  .object
    [("cve".toList, .object
        [("CVE_data_meta".toList, .object [("ID".toList, .string "CVE-1".toList)]),
          ("description".toList, .object
            [("description_data".toList, .array [.object [("value".toList, .string "s".toList)]])])]),
      ("impact".toList, .object []),
      ("configurations".toList, .object
        [("nodes".toList, .array
          [.object
            [("cpe_match".toList, .array
              [.object
                [("vulnerable".toList, .bool true),
                  ("cpe23Uri".toList, .string "cpe:2.3:a:v:n:1".toList)]])]])])]

/-- A feed with one vulnerability, as it is compressed. -/
def oneFeed : Body :=
  [31, 139, 8, 0, 0, 0, 0, 0, 2, 255, 77, 142, 189, 14, 131, 48, 12, 132, 223, 197, 51, 173, 4,
    108, 94, 219, 14, 60, 64, 187, 84, 8, 185, 193, 109, 35, 145, 128, 242, 195, 130, 242, 238,
    181, 97, 233, 118, 190, 243, 125, 246, 6, 151, 199, 109, 232, 18, 187, 8, 248, 220, 192, 172,
    12, 184, 237, 230, 72, 137, 6, 199, 137, 212, 232, 174, 128, 234, 158, 106, 40, 21, 140, 28,
    77, 176, 75, 178, 179, 215, 240, 111, 220, 91, 59, 105, 165, 41, 11, 11, 34, 148, 190, 72, 199,
    186, 133, 76, 146, 117, 209, 102, 246, 111, 251, 201, 129, 180, 18, 21, 225, 103, 129, 28, 31,
    44, 60, 56, 74, 230, 123, 80, 242, 228, 57, 208, 107, 18, 84, 10, 153, 43, 205, 155, 246, 30,
    172, 160, 69, 98, 115, 110, 145, 112, 69, 143, 181, 30, 146, 83, 125, 249, 1, 120, 212, 35,
    180, 213, 0, 0, 0]

def decodeOne (content : Body) : Option Json :=
  if content = oneFeed then some (.object [("CVE_Items".toList, .array [oneItem])]) else none

def oneRun : List Action :=
  [.start 2002, .answer (.response (some ['a']) oneFeed), .receive oneFeed, .endOfBody, .load,
    .answer (.httpError 404), .commit]

def noReal : Option Rat → Option Text := fun _ => none

theorem oneRun_tables : ∃ s : Database Tables,
    Run (Database.Step decodeOne (Tables.insert noReal)) (.start (fun _ => none) .empty) oneRun s ∧
    ∃ log, Run (Database.Step decodeOne append) (.start (fun _ => none) []) oneRun log ∧
      log.system = s.system ∧
      (∀ feed, feed ∈ log.tables ↔ ReadAndCommitted decodeOne (fun _ => none) oneRun feed) ∧
      (∀ row, row ∈ s.tables.cve ↔ ∃ before after,
        (log.tables.flatMap fun feed => feed.1.map (Vuln.row noReal)) = before ++ row :: after ∧
          ∀ later ∈ after, later.id = row.id → row.id = none) ∧
      ∀ row, row ∈ s.tables.productVuln ↔
        ∃ feed ∈ log.tables, ∃ product ∈ feed.2, product.row noReal = row := by
  have evaluated : (oneRun.foldlM (Database.act decodeOne (Tables.insert noReal))
      (.start (fun _ => none) .empty)).isSome = true := by decide +kernel
  obtain ⟨s, computed⟩ := Option.isSome_iff_exists.mp evaluated
  have run : Run (Database.Step decodeOne (Tables.insert noReal)) (.start (fun _ => none) .empty) oneRun s :=
    .of_foldlM computed
  exact ⟨s, run, tables_of_feeds run⟩

end GnomeBuildMeta.Cve
