import GnomeBuildMeta.Control.Descent
import GnomeBuildMeta.Initramfs.CopyInitramfsRun
import GnomeBuildMeta.Posix.LastUp

/-!
# From link to link

`get_dependencies` yields one path for a link.  It names what the system reaches
by the link if no `..` of the target goes over another link unnoticed, and the
chain of these paths ends at the file if it does not come back to a link.
-/

namespace GnomeBuildMeta.Initramfs

open GnomeBuildMeta.Control GnomeBuildMeta.Posix Relation

variable {env : Env} {host : FileSystem String} {t t' link : Text} {dir q : Path String}

/-! ## One link -/

/-- A text leads to an entry, with all links followed. -/
def Names (host : FileSystem String) (text : Text) (q : Path String) : Prop :=
  host.locate true text = .ok q ∧ (host.get q).isSome = true

theorem names_iff : Names host t q ↔ ∃ k, k ≤ maxSymlinks ∧ Reaches host.get true [] t k q := by
  constructor
  · rintro ⟨located, there⟩
    exact Reaches.of_walk located there
  · rintro ⟨k, enough, reaches⟩
    exact ⟨reaches.walk_eq enough, reaches.exists_node host.grounded host.isDirAt_root⟩

/-- The yielded path names what the system reaches by the link from its directory. -/
def YieldsSame (host : FileSystem String) (dir : Path String) (link : Text) : Prop :=
  ∀ q, walk host.get true maxSymlinks (linkStart dir link) link = .ok q → (host.get q).isSome = true →
    Names host (linkDependency dir link) q

theorem yieldsSame_iff (isDir : host.isDirAt dir = true) :
    YieldsSame host dir link ↔ isabs link = true ∨ host.Meets dir link := by
  by_cases absolute : isabs link = true
  · refine iff_of_true (fun q walked there => ?_) (Or.inl absolute)
    rw [linkDependency, if_pos absolute]
    rw [linkStart_of_isabs absolute] at walked
    exact ⟨walked, there⟩
  · have here := linkStart_of_not_isabs absolute dir
    have start : (host.get (linkStart dir link)).any Node.isDir = true := host.grounded.linkStart isDir link
    rw [or_iff_right absolute, ← host.leads_iff_meets isDir]
    constructor
    · intro same k q enough reaches
      rw [← here] at reaches
      have names := same q (reaches.walk_eq enough) (reaches.exists_node host.grounded start)
      rwa [linkDependency, if_neg absolute, names_iff] at names
    · intro leads q walked there
      obtain ⟨k, enough, reaches⟩ := Reaches.of_walk walked there
      rw [here] at reaches
      rw [linkDependency, if_neg absolute, names_iff]
      exact leads k q enough reaches

/-! ## The chain -/

/-- What is yielded for a link. -/
def Hop (env : Env) (t t' : Text) : Prop :=
  ∃ link, env.host.lstat t = some (.symlink link) ∧ getDependencies env t = .ok [t']

/-- The chain of yielded paths ends, and every path of it names the entry. -/
inductive Follows (env : Env) (q : Path String) : Text → Prop where
  | file {t : Text} (names : Names env.host t q) (noLink : env.host.islink t = false) : Follows env q t
  | hop {t t' : Text} (names : Names env.host t q) (hop : Hop env t t') (later : Follows env q t') : Follows env q t

/-- The condition on a link at which the chain stands. -/
def MeetsAt (env : Env) (t : Text) : Prop :=
  ∀ link, env.host.lstat t = some (.symlink link) →
    isabs link = true ∨ env.host.Meets (env.host.realpath (dirname t)) link

theorem yields_of_link (found : env.host.lstat t = some (.symlink link)) :
    getDependencies env t = .ok [linkDependency (env.host.realpath (dirname t)) link] := by
  simp only [getDependencies, found]

theorem hop_cases (hop : Hop env t t') : ∃ link, env.host.lstat t = some (.symlink link) ∧
    t' = linkDependency (env.host.realpath (dirname t)) link := by
  obtain ⟨link, found, yields⟩ := hop
  rw [yields_of_link found] at yields
  cases yields
  exact ⟨link, found, rfl⟩

theorem hop_unique {t₁ t₂ : Text} (first : Hop env t t₁) (second : Hop env t t₂) : t₁ = t₂ := by
  obtain ⟨link, found, rfl⟩ := hop_cases first
  obtain ⟨link', found', rfl⟩ := hop_cases second
  cases found.symm.trans found'
  rfl

theorem exists_link (isLink : env.host.islink t = true) : ∃ link, env.host.lstat t = some (.symlink link) := by
  obtain ⟨node, found, symlink⟩ := (Option.any_eq_true _ _).mp isLink
  obtain ⟨link, rfl⟩ := Node.isSymlink_iff.mp symlink
  exact ⟨link, found⟩

theorem islink_of_hop (hop : Hop env t t') : env.host.islink t = true := by
  obtain ⟨link, found, _⟩ := hop
  rw [FileSystem.islink, found]
  rfl

/-- A path that names an entry through a link: the system reaches it by the link, too. -/
theorem walk_of_names (found : host.lstat t = some (.symlink link)) (names : Names host t q) :
    walk host.get true maxSymlinks (linkStart (host.realpath (dirname t)) link) link = .ok q := by
  obtain ⟨n, k₀, _, unfollowed, isDir, _, there⟩ := location_of_link found
  obtain ⟨k, enough, reaches⟩ := names_iff.mp names
  obtain ⟨k', rfl, behind⟩ := Reaches.behind_link host.grounded host.isDirAt_root unfollowed there reaches
  exact behind.walk_eq (by omega)

/-- A link on a chain that names one entry: the condition is that the next path names it, too. -/
theorem meetsAt_iff (names : Names env.host t q) (hop : Hop env t t') :
    MeetsAt env t ↔ Names env.host t' q := by
  obtain ⟨link, found, rfl⟩ := hop_cases hop
  obtain ⟨_, _, _, _, isDir, _⟩ := location_of_link found
  have reached := walk_of_names found names
  constructor
  · intro meets
    exact (yieldsSame_iff isDir).mpr (meets link found) q reached names.2
  · intro same link' found'
    cases found.symm.trans found'
    refine (yieldsSame_iff isDir).mp fun q' walked there => ?_
    cases reached.symm.trans walked
    exact same

theorem Follows.names (follows : Follows env q t) : Names env.host t q := by
  cases follows with
  | file names _ => exact names
  | hop names _ _ => exact names

/-- What is behind a path on a chain that ends is on the chain. -/
theorem Follows.behind (follows : Follows env q t) (reached : ReflTransGen (Hop env) t t') : Follows env q t' := by
  induction reached with
  | refl => exact follows
  | tail _ hop ih =>
      cases ih with
      | file _ noLink =>
          rw [islink_of_hop hop] at noLink
          cases noLink
      | hop _ same later => rwa [hop_unique hop same]

theorem Follows.meetsAt (follows : Follows env q t) : MeetsAt env t := by
  cases follows with
  | file _ noLink =>
      intro link found
      rw [FileSystem.islink, found] at noLink
      cases noLink
  | hop names hop later => exact (meetsAt_iff names hop).mpr later.names

/-- By induction on the chain: what comes back would still come back one path further on. -/
theorem Follows.neverBack (follows : Follows env q t) : ¬ TransGen (Hop env) t t := by
  induction follows with
  | file _ noLink =>
      intro back
      obtain ⟨_, hop, _⟩ := TransGen.head'_iff.mp back
      rw [islink_of_hop hop] at noLink
      cases noLink
  | @hop t t' _ hop later ih =>
      intro back
      obtain ⟨next, hop', rest⟩ := TransGen.head'_iff.mp back
      cases hop_unique hop hop'
      exact ih (TransGen.tail' rest hop)

/-- What is yielded for an entry if it is a link. -/
def yielded (e : Path String × Node String) : Text :=
  match e.2 with
  | .symlink link => linkDependency e.1.tail link
  | _ => []

theorem mem_yielded (hop : Hop env t t') : t' ∈ env.host.entries.map yielded := by
  obtain ⟨link, found, rfl⟩ := hop_cases hop
  obtain ⟨n, _, _, _, _, _, there⟩ := location_of_link found
  exact List.mem_map.mpr ⟨_, (env.host.mem_entries_iff _ _).mpr there, rfl⟩

/-- There are no more paths on a chain than entries, and the first one. -/
theorem finite_chain (env : Env) (t : Text) : {t' | ReflTransGen (Hop env) t t'}.Finite := by
  refine ((env.host.entries.map yielded).finite_toSet.insert t).subset fun t' reached => ?_
  rcases ReflTransGen.cases_tail reached with rfl | ⟨_, _, hop⟩
  · exact Set.mem_insert t' _
  · exact Set.mem_insert_of_mem t (mem_yielded hop)

/-- By induction along the chain, which is finite and does not come back. -/
theorem follows_of_meets (names : Names env.host t q)
    (meets : ∀ t', ReflTransGen (Hop env) t t' → MeetsAt env t') (neverBack : NeverBack (Hop env) t) :
    Follows env q t := by
  refine neverBack.induction (P := fun t' => Names env.host t' q → Follows env q t') (finite_chain env t)
    (fun t' reached later names => ?_) names
  cases isLink : env.host.islink t' with
  | false => exact .file names isLink
  | true =>
      obtain ⟨link, found⟩ := exists_link isLink
      have hop : Hop env t' _ := ⟨link, found, yields_of_link found⟩
      exact .hop names hop (later _ hop ((meetsAt_iff names hop).mp (meets t' reached)))

theorem follows_iff (names : Names env.host t q) : Follows env q t ↔
    (∀ t', ReflTransGen (Hop env) t t' → MeetsAt env t') ∧ NeverBack (Hop env) t := by
  constructor
  · intro follows
    exact ⟨fun t' reached => (follows.behind reached).meetsAt, fun t' reached => (follows.behind reached).neverBack⟩
  · rintro ⟨meets, neverBack⟩
    exact follows_of_meets names meets neverBack

/-- No `..` of the link at which the chain stands takes back a link. -/
def NoDetourAt (env : Env) (t : Text) : Prop :=
  ∀ link, env.host.lstat t = some (.symlink link) →
    isabs link = true ∨ env.host.noLinkUp (env.host.realpath (dirname t)) link = true

/-- The path behind such a link leads to the same entry over fewer links. -/
theorem reaches_of_noDetour {k : Nat} (noDetour : NoDetourAt env t) (hop : Hop env t t') (enough : k ≤ maxSymlinks)
    (reaches : Reaches env.host.get true [] t k q) : ∃ k', k' < k ∧ Reaches env.host.get true [] t' k' q := by
  obtain ⟨link, found, rfl⟩ := hop_cases hop
  obtain ⟨n, k₀, _, unfollowed, isDir, _, there⟩ := location_of_link found
  obtain ⟨k', rfl, behind⟩ :=
    Reaches.behind_link env.host.grounded env.host.isDirAt_root unfollowed there reaches
  change Reaches env.host.get true (linkStart (env.host.realpath (dirname t)) link) link k' q at behind
  rw [linkDependency]
  by_cases absolute : isabs link = true
  · rw [linkStart_of_isabs absolute] at behind
    rw [if_pos absolute]
    exact ⟨k', by omega, behind⟩
  · rw [linkStart_of_not_isabs absolute] at behind
    rw [if_neg absolute]
    obtain ⟨k'', fewer, whole⟩ := FileSystem.reaches_absText_normFrom isDir
      ((noDetour link found).resolve_left absolute) behind (by omega)
    exact ⟨k'', by omega, whole⟩

/-- By induction on the links that are left: without detours a chain ends at the file. -/
theorem follows_of_noDetour (names : Names env.host t q)
    (noDetour : ∀ t', ReflTransGen (Hop env) t t' → NoDetourAt env t') : Follows env q t := by
  obtain ⟨k, enough, reaches⟩ := names_iff.mp names
  clear names
  induction k using Nat.strong_induction_on generalizing t with
  | h k ih =>
      have names : Names env.host t q := names_iff.mpr ⟨k, enough, reaches⟩
      cases isLink : env.host.islink t with
      | false => exact .file names isLink
      | true =>
          obtain ⟨link, found⟩ := exists_link isLink
          have hop : Hop env t _ := ⟨link, found, yields_of_link found⟩
          obtain ⟨k', fewer, reaches'⟩ := reaches_of_noDetour (noDetour t .refl) hop enough reaches
          refine .hop names hop (ih k' fewer ?_ (by omega) reaches')
          exact fun t' reached => noDetour t' (reached.head hop)

/--
The path that is yielded for a link names what the system reaches by it if and
only if the target meets the condition; the chain from a link ends at its file if
and only if all its links do and it does not come back.
-/
theorem chain_ends_iff (env : Env) :
    (∀ t link, env.host.lstat t = some (.symlink link) → ∃ n dir, env.host.locate false t = .ok (n :: dir) ∧
        getDependencies env t = .ok [linkDependency dir link] ∧
        (YieldsSame env.host dir link ↔ isabs link = true ∨ env.host.Meets dir link)) ∧
      ∀ t q, Names env.host t q → (Follows env q t ↔
        (∀ t', ReflTransGen (Hop env) t t' → MeetsAt env t') ∧ NeverBack (Hop env) t) := by
  refine ⟨fun t link found => ?_, fun t q names => follows_iff names⟩
  obtain ⟨n, k, enough, reaches, isDir, _, _⟩ := location_of_link found
  exact ⟨n, _, reaches.walk_eq enough, yields_of_link found, yieldsSame_iff isDir⟩

/-! ## Two detours -/

/-- `/d/x` goes over the link `/d/sub` and back up, `/d/y` does so to its own name. -/
def detourHost : FileSystem String where
  entries :=
    [([], .dir 0o755),
      (["d"], .dir 0o755),
      (["x", "d"], .symlink [.name "sub", .up, .name "f"]),
      (["y", "d"], .symlink [.name "sub", .up, .name "y"]),
      (["z", "d"], .symlink [.up, .name "e", .name "f"]),
      (["sub", "d"], .symlink [.empty, .name "e", .name "g"]),
      (["e"], .dir 0o755),
      (["g", "e"], .dir 0o755),
      (["f", "e"], .file ⟨0o644, 1, 0, 0⟩ [1]),
      (["y", "e"], .file ⟨0o644, 1, 0, 0⟩ [2])]
  nodup := by simp
  root := rfl
  parents := by simp [List.lookup_cons, List.lookup_nil, Node.isDir]

def detourEnv : Env where
  host := detourHost
  fileDependencies := fun _ => .ok []
  order := fun _ deps => deps
  order_perm := fun _ _ => .refl _
  uid := 0
  gid := 0

def entryText (name : String) : Text := [.empty, .name "d", .name name]

/-- The chain of `/d/z`, which takes back no link. -/
theorem straight_followed : Follows detourEnv ["f", "e"] (entryText "z") ↔
    (∀ t', ReflTransGen (Hop detourEnv) (entryText "z") t' → MeetsAt detourEnv t') ∧
      NeverBack (Hop detourEnv) (entryText "z") :=
  (chain_ends_iff detourEnv).2 (entryText "z") ["f", "e"] ⟨rfl, rfl⟩

/-- The path that is yielded for `/d/x` does not exist, and that for `/d/y` is `/d/y` again. -/
theorem detour_not_followed :
    (Names detourHost (entryText "x") ["f", "e"] ∧
        getDependencies detourEnv (entryText "x") = .ok [entryText "f"] ∧
        (∀ q, ¬ Names detourHost (entryText "f") q) ∧ ¬ Follows detourEnv ["f", "e"] (entryText "x")) ∧
      Names detourHost (entryText "y") ["y", "e"] ∧ Hop detourEnv (entryText "y") (entryText "y") ∧
        ¬ Follows detourEnv ["y", "e"] (entryText "y") := by
  have lost : ∀ q, ¬ Names detourHost (entryText "f") q := by
    rintro q ⟨located, there⟩
    have missing : detourHost.locate true (entryText "f") = .ok ["f", "d"] := rfl
    cases Except.ok.inj (missing.symm.trans located)
    cases there
  have hopX : Hop detourEnv (entryText "x") (entryText "f") := ⟨_, rfl, rfl⟩
  have hopY : Hop detourEnv (entryText "y") (entryText "y") := ⟨_, rfl, rfl⟩
  refine ⟨⟨⟨rfl, rfl⟩, rfl, lost, fun follows => ?_⟩, ⟨rfl, rfl⟩, hopY, fun follows => ?_⟩
  · exact lost _ (follows.behind (.single hopX)).names
  · exact follows.neverBack (.single hopY)

end GnomeBuildMeta.Initramfs
