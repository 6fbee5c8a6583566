import GnomeBuildMeta.Words.Decimal
import Mathlib.Data.List.AList
import Mathlib.Data.List.Sort
import Mathlib.Data.String.Basic

/-!
# collect_initial_scripts.py

The element writes the scripts of its dependencies into one directory.  The
order in which they are to run is in their names, as a number of three digits;
from the thousandth script on there are more, and it comes too early.
-/

namespace GnomeBuildMeta.InitialScripts

open Words

abbrev Text := List Char

structure Dependency where
  name : Text
  /-- The `script` of its public data `initial-script`, with the variables substituted. -/
  script : Option Text

structure File where
  content : Text
  mode : Nat
  deriving DecidableEq

abbrev Directory := AList fun _ : Text => File

/-- `re.sub('[^A-Za-z0-9]', '_', name)` -/
def depname (name : Text) : Text := name.map fun c => if c.isAlphanum then c else '_'

/-- `'{:03}-{}'.format(index, depname)` -/
def basename (index : Nat) (name : Text) : Text := padded 3 index ++ '-' :: depname name

/-- The variables of the loop. -/
structure Assembly where
  index : Nat
  pathdir : Directory

def Assembly.round (s : Assembly) (dependency : Dependency) : Assembly :=
  match dependency.script with
  | none => s
  | some script =>
      ⟨s.index + 1, s.pathdir.insert (basename (s.index + 1) dependency.name) ⟨script, 0o755⟩⟩

def assemble (dependencies : List Dependency) : Directory :=
  (dependencies.foldl Assembly.round ⟨0, ∅⟩).pathdir

/-- The files of a directory, in the order of the bytes of their names. -/
def listing (dir : Directory) : List (Text × File) :=
  (dir.entries.map fun entry => (entry.1, entry.2)).insertionSort fun a b => a.1 ≤ b.1

/-! ## What the listing should be -/

/-- The scripts in the order of the dependencies, with the numbers that follow `index`. -/
def scriptsFrom (index : Nat) : List Dependency → List (Text × File)
  | [] => []
  | dependency :: rest =>
      match dependency.script with
      | none => scriptsFrom index rest
      | some script => (basename (index + 1) dependency.name, ⟨script, 0o755⟩) ::
          scriptsFrom (index + 1) rest

def scripts (dependencies : List Dependency) : List (Text × File) := scriptsFrom 0 dependencies

/-- No file is written twice, and the directory lists the scripts in their order. -/
structure InOrder (dependencies : List Dependency) : Prop where
  distinct : ((scripts dependencies).map Prod.fst).Nodup
  listed : listing (assemble dependencies) = scripts dependencies

variable {dependencies : List Dependency} {index : Nat}

theorem scriptsFrom_contents (index : Nat) (dependencies : List Dependency) :
    (scriptsFrom index dependencies).map (fun entry => entry.2.content) =
      dependencies.filterMap Dependency.script := by
  induction dependencies generalizing index with
  | nil => rfl
  | cons dependency rest ih =>
      cases found : dependency.script with
      | none =>
          rw [scriptsFrom, List.filterMap_cons, found]
          exact ih index
      | some script =>
          rw [scriptsFrom, List.filterMap_cons, found, List.map_cons, ih]

theorem length_scripts (dependencies : List Dependency) :
    (scripts dependencies).length = (dependencies.filterMap Dependency.script).length := by
  rw [← scriptsFrom_contents 0 dependencies, List.length_map]
  rfl

/-- A name that was made with the number. -/
def Numbered (number : Nat) (name : Text) : Prop := ∃ dependency, name = basename number dependency

theorem numbered_of_getElem {dependencies : List Dependency} {index k : Nat} {entry : Text × File}
    (found : (scriptsFrom index dependencies)[k]? = some entry) : Numbered (index + k + 1) entry.1 := by
  induction dependencies generalizing index k with
  | nil => cases found
  | cons dependency rest ih =>
      rw [scriptsFrom] at found
      split at found
      · exact ih found
      · cases k with
        | zero =>
            cases found
            exact ⟨dependency.name, rfl⟩
        | succ k =>
            have later := ih (k := k) found
            rwa [show index + 1 + k + 1 = index + (k + 1) + 1 by omega] at later

/-! ## The names -/

theorem numbered_unique {n m : Nat} {name : Text} (first : Numbered n name) (second : Numbered m name) :
    n = m := by
  obtain ⟨depname, rfl⟩ := first
  obtain ⟨depname', same⟩ := second
  have front : ∀ (n : Nat) (name : Text), (basename n name).takeWhile (· ≠ '-') = padded 3 n := by
    intro n name
    have digits : ∀ c ∈ padded 3 n, decide (c ≠ '-') = true := by
      intro c member
      rw [decide_eq_true_eq]
      rintro rfl
      exact absurd (decimal_padded 3 n _ member) (by decide)
    rw [basename, List.takeWhile_append_of_pos digits, List.takeWhile_cons_of_neg (by decide),
      List.append_nil]
  have digits : padded 3 n = padded 3 m := by rw [← front n depname, same, front]
  exact padded_injective digits

/-- Up to three digits the names are in the order of the numbers. -/
theorem numbered_lt {n m : Nat} {name name' : Text} (first : Numbered n name)
    (second : Numbered m name') (less : n < m) (short : m ≤ 999) : name < name' := by
  obtain ⟨depname, rfl⟩ := first
  obtain ⟨depname', rfl⟩ := second
  have lengths : (padded 3 n).length = (padded 3 m).length := by
    rw [length_padded (by decide) (by omega), length_padded (by decide) (by omega)]
  exact append_lt_append lengths (padded_lt (by decide) less (by omega)) _ _

/-- The thousandth name comes before the one of the script number 101. -/
theorem numbered_thousand_lt {name name' : Text} (first : Numbered 1000 name)
    (second : Numbered 101 name') : name < name' := by
  obtain ⟨depname, rfl⟩ := first
  obtain ⟨depname', rfl⟩ := second
  have texts : padded 3 1000 = ['1', '0', '0'] ++ ['0'] ∧ padded 3 101 = ['1', '0', '1'] := by decide
  have less : ['1', '0', '0'] < ['1', '0', '1'] := by decide
  rw [basename, basename, texts.1, texts.2, List.append_assoc]
  exact append_lt_append (by decide : ['1', '0', '0'].length = ['1', '0', '1'].length) less _ _

theorem scripts_pairwise_of_numbered {R : Text × File → Text × File → Prop}
    (related : ∀ (n m : Nat) a b, n < m → m ≤ (scripts dependencies).length → Numbered n a.1 →
      Numbered m b.1 → R a b) : (scripts dependencies).Pairwise R := by
  rw [List.pairwise_iff_getElem]
  intro i j hi hj less
  have numbered : ∀ k (inside : k < (scripts dependencies).length),
      Numbered (k + 1) (scripts dependencies)[k].1 := by
    intro k inside
    have found := numbered_of_getElem (List.getElem?_eq_getElem inside)
    rwa [Nat.zero_add] at found
  exact related (i + 1) (j + 1) _ _ (by omega) hj (numbered i hi) (numbered j hj)

theorem scripts_distinct (dependencies : List Dependency) :
    ((scripts dependencies).map Prod.fst).Nodup := by
  rw [List.Nodup, List.pairwise_map]
  refine scripts_pairwise_of_numbered fun n m a b less _ first second same => ?_
  exact Nat.ne_of_lt less (numbered_unique first (same ▸ second))

/-! ## The directory -/

/-- By induction on the dependencies: every script is written to a new file. -/
theorem foldl_round_entries {s : Assembly} (below : ∀ name ∈ s.pathdir, ∃ n ≤ s.index, Numbered n name) :
    (dependencies.foldl Assembly.round s).pathdir.entries =
      (scriptsFrom s.index dependencies).reverse.map (fun entry => ⟨entry.1, entry.2⟩) ++
        s.pathdir.entries := by
  induction dependencies generalizing s with
  | nil => rfl
  | cons dependency rest ih =>
      rw [List.foldl_cons, scriptsFrom]
      cases found : dependency.script with
      | none =>
          have skipped : s.round dependency = s := by rw [Assembly.round, found]
          rw [skipped]
          exact ih below
      | some script =>
          have written : s.round dependency = ⟨s.index + 1,
              s.pathdir.insert (basename (s.index + 1) dependency.name) ⟨script, 0o755⟩⟩ := by
            rw [Assembly.round, found]
          have here : Numbered (s.index + 1) (basename (s.index + 1) dependency.name) := ⟨_, rfl⟩
          have fresh : basename (s.index + 1) dependency.name ∉ s.pathdir := by
            intro member
            obtain ⟨n, small, numbered⟩ := below _ member
            have same := numbered_unique numbered here
            omega
          rw [written, ih]
          · rw [AList.entries_insert_of_notMem fresh, List.reverse_cons, List.map_append,
              List.append_assoc]
            rfl
          · intro name member
            rcases (AList.mem_insert _).mp member with rfl | before
            · exact ⟨_, Nat.le_refl _, here⟩
            · obtain ⟨n, small, numbered⟩ := below name before
              exact ⟨n, Nat.le_succ_of_le small, numbered⟩

theorem listing_perm (dependencies : List Dependency) :
    (listing (assemble dependencies)).Perm (scripts dependencies) := by
  have entries : (assemble dependencies).entries =
      (scripts dependencies).reverse.map (fun entry => ⟨entry.1, entry.2⟩) ++ [] :=
    foldl_round_entries fun _ member => absurd member (AList.notMem_empty _)
  rw [listing, entries, List.append_nil, List.map_map]
  refine (List.perm_insertionSort _ _).trans ?_
  have whole : (scripts dependencies).reverse.map
      ((fun entry : (_ : Text) × File => (entry.1, entry.2)) ∘ fun entry => ⟨entry.1, entry.2⟩) =
        (scripts dependencies).reverse := List.map_id _
  rw [whole]
  exact List.reverse_perm _

theorem listing_sorted (dir : Directory) : (listing dir).Pairwise fun a b => a.1 ≤ b.1 := by
  have total : Std.Total fun a b : Text × File => a.1 ≤ b.1 := ⟨fun a b => le_total a.1 b.1⟩
  have trans : IsTrans (Text × File) fun a b => a.1 ≤ b.1 := ⟨fun _ _ _ => le_trans⟩
  exact List.pairwise_insertionSort _ _

/-- The listing is the sorted one of the orders that the scripts may have. -/
theorem listing_eq_iff (dependencies : List Dependency) :
    listing (assemble dependencies) = scripts dependencies ↔
      (scripts dependencies).Pairwise fun a b => a.1 ≤ b.1 := by
  constructor
  · intro same
    rw [← same]
    exact listing_sorted _
  · intro sorted
    refine List.Perm.eq_of_pairwise ?_ (listing_sorted _) sorted (listing_perm _)
    intro a b inside inside' less more
    have name : a.1 = b.1 := le_antisymm less more
    exact List.inj_on_of_nodup_map (scripts_distinct dependencies) ((listing_perm _).subset inside)
      inside' name

theorem listing_ne {dependencies : List Dependency}
    (many : 999 < (dependencies.filterMap Dependency.script).length) :
    listing (assemble dependencies) ≠ scripts dependencies := by
  rw [← length_scripts] at many
  intro same
  have sorted := List.pairwise_iff_getElem.mp ((listing_eq_iff _).mp same) 100 999 (by omega) many
    (by decide)
  have first := numbered_of_getElem (List.getElem?_eq_getElem (show 100 < (scripts dependencies).length
    by omega))
  have last := numbered_of_getElem (List.getElem?_eq_getElem many)
  exact absurd sorted (not_le_of_gt (numbered_thousand_lt last first))

/-- The order is kept as long as the numbers have three digits. -/
theorem inOrder_iff (dependencies : List Dependency) :
    InOrder dependencies ↔ (dependencies.filterMap Dependency.script).length ≤ 999 := by
  constructor
  · intro inOrder
    by_contra many
    exact listing_ne (Nat.lt_of_not_le many) inOrder.listed
  · intro few
    rw [← length_scripts] at few
    refine ⟨scripts_distinct dependencies, (listing_eq_iff dependencies).mpr ?_⟩
    refine scripts_pairwise_of_numbered fun n m a b less inside first second => ?_
    exact le_of_lt (numbered_lt first second less (Nat.le_trans inside few))

/-- A thousand elements that each have a script. -/
theorem thousand_not_inOrder :
    ¬ InOrder (List.replicate 1000 ⟨"components/app.bst".toList, some "true".toList⟩) := by
  intro inOrder
  have given : Dependency.script ⟨"components/app.bst".toList, some "true".toList⟩ =
      some "true".toList := rfl
  refine listing_ne ?_ inOrder.listed
  rw [List.filterMap_replicate_of_some given, List.length_replicate]
  decide

end GnomeBuildMeta.InitialScripts
