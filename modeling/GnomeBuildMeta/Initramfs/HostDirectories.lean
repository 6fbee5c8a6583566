import GnomeBuildMeta.Initramfs.CopyGraph

/-!
# Directories of the host

A path that leads to a directory needs its own directory and, at a link, what the
link names.  Both lead on over fewer links, or over as many with a shorter text,
so that no directory needs itself.
-/

namespace GnomeBuildMeta.Initramfs

open GnomeBuildMeta.Posix

variable {host : FileSystem String} {env : Env} {t u : Text} {k : Nat} {q : Path String}

/-- The path leads to a directory over `k` links. -/
structure Leads (host : FileSystem String) (t : Text) (k : Nat) (q : Path String) : Prop where
  reaches : Reaches host.get true [] t k q
  isDir : host.isDirAt q = true
  enough : k ≤ maxSymlinks

theorem isdir_iff : host.isdir t = true ↔ ∃ k q, Leads host t k q := by
  constructor
  · intro isdir
    rw [FileSystem.isdir, FileSystem.stat] at isdir
    cases located : host.locate true t with
    | error e =>
        rw [located] at isdir
        cases isdir
    | ok q =>
        rw [located] at isdir
        obtain ⟨node, found, _⟩ := (Option.any_eq_true _ _).mp isdir
        obtain ⟨k, enough, reaches⟩ := Reaches.of_walk located (Option.isSome_of_eq_some found)
        exact ⟨k, q, reaches, isdir, enough⟩
  · rintro ⟨k, q, leads⟩
    have located : host.locate true t = .ok q := leads.reaches.walk_eq leads.enough
    rw [FileSystem.isdir, FileSystem.stat, located]
    exact leads.isDir

/-- The directory of what is there is one of the host. -/
theorem leads_dirname_of_lexists (there : host.lexists t = true) : ∃ k c, Leads host (dirname t) k c := by
  obtain ⟨node, found⟩ := Option.isSome_iff_exists.mp there
  obtain ⟨k, q, enough, reaches, _⟩ := FileSystem.lstat_eq_some_iff.mp found
  obtain ⟨k₁, c, k₂, one, isDir, _, sum⟩ := directory_of_reaches reaches
  exact ⟨k₁, c, one, isDir, by omega⟩

namespace Leads

theorem realpath (leads : Leads host t k q) : host.realpath t = q :=
  host.realpath_of_reaches leads.reaches

theorem lexists (leads : Leads host t k q) : host.lexists t = true := by
  obtain ⟨k', p, fewer, reaches⟩ := leads.reaches.unfollow
  obtain ⟨node, found⟩ :=
    Option.isSome_iff_exists.mp (reaches.exists_node host.grounded host.isDirAt_root)
  rw [FileSystem.lexists, FileSystem.lstat_eq_some_iff.mpr
    ⟨k', p, Nat.le_trans fewer leads.enough, reaches, found⟩]
  rfl

/-- The directory of the path is led to over no more links. -/
theorem dirname (leads : Leads host t k q) : ∃ k' c, k' ≤ k ∧ Leads host (Posix.dirname t) k' c := by
  obtain ⟨k₁, c, k₂, one, isDir, _, sum⟩ := directory_of_reaches leads.reaches
  have bound := leads.enough
  exact ⟨k₁, c, by omega, one, isDir, by omega⟩

/-- The path names the directory itself, or a link that leads on to it. -/
theorem last (leads : Leads host t k q) : reallinkpath host t = q ∨
    ∃ n c link k₂, reallinkpath host t = n :: c ∧ host.isDirAt c = true ∧
      host.get (n :: c) = some (.symlink link) ∧
        Reaches host.get true (linkStart c link) link k₂ q ∧ k₂ < k := by
  obtain ⟨k₁, c, k₂, one, isDir, two, rfl⟩ := directory_of_reaches leads.reaches
  have location : reallinkpath host t = lexical c (basename t) := by
    rw [reallinkpath, host.realpath_of_reaches one]
  rw [location]
  generalize basename t = piece at two
  cases two with
  | empty later | cur later | up later | dir _ later =>
      cases later
      exact Or.inl rfl
  | leaf _ _ _ => exact Or.inl rfl
  | @link _ _ n link _ k₃ found _ later =>
      rw [List.append_nil] at later
      exact Or.inr ⟨n, c, link, k₃, rfl, isDir, found, later, by omega⟩

/-- The location of the path leads to the directory too. -/
theorem textOf_reallinkpath (leads : Leads host t k q) :
    host.isdir (textOf (reallinkpath host t)) = true := by
  rw [isdir_iff]
  have bound := leads.enough
  rcases leads.last with same | ⟨n, c, link, k₂, location, isDir, found, later, fewer⟩
  · refine ⟨0, q, ?_, leads.isDir, Nat.zero_le _⟩
    rw [same, ← List.append_nil (textOf q), Reaches.textOf_append_iff host.grounded leads.isDir]
    exact .done
  · refine ⟨k₂ + 1, q, ?_, leads.isDir, by omega⟩
    rw [location, textOf_cons, Reaches.textOf_append_iff host.grounded isDir]
    refine .link found (Or.inl rfl) ?_
    rw [List.append_nil]
    exact later

end Leads

/-- A path to a directory itself is its own location. -/
theorem realpath_of_dir {perm : Nat} (found : host.lstat t = some (.dir perm)) :
    host.realpath t = reallinkpath host t := by
  refine host.realpath_of_not_link fun target link => ?_
  have here := get_reallinkpath found
  rw [reallinkpath, link] at here
  cases here

/-! ## Links -/

/-- No relative link goes through another link that a `..` takes back. -/
def LinksPlain (host : FileSystem String) : Prop :=
  ∀ n dir link, host.get (n :: dir) = some (.symlink link) → isabs link = false →
    host.noLinkUp dir link = true

theorem getDependencies_of_link {n : String} {c : Path String} {link : Text}
    (found : env.host.lstat t = some (.symlink link)) (location : reallinkpath env.host t = n :: c) :
    getDependencies env t = .ok [linkDependency c link] := by
  obtain ⟨n', same⟩ := reallinkpath_of_leaf found rfl
  rw [location] at same
  rw [getDependencies, found, (List.cons.inj same).2]

/-- What a link is recorded with leads where the link does. -/
theorem leads_linkDependency (plain : LinksPlain host) {n : String} {c : Path String} {link : Text}
    (isDir : host.isDirAt c = true) (found : host.get (n :: c) = some (.symlink link))
    (reaches : Reaches host.get true (linkStart c link) link k q) (enough : k ≤ maxSymlinks)
    (isDir' : host.isDirAt q = true) : ∃ k', k' ≤ k ∧ Leads host (linkDependency c link) k' q := by
  rw [linkDependency]
  cases absolute : isabs link with
  | true =>
      rw [linkStart_of_isabs absolute] at reaches
      exact ⟨k, Nat.le_refl k, reaches, isDir', enough⟩
  | false =>
      rw [linkStart_of_not_isabs (Bool.eq_false_iff.mp absolute)] at reaches
      obtain ⟨k', fewer, whole⟩ :=
        FileSystem.reaches_absText_normFrom isDir (plain n c link found absolute) reaches enough
      exact ⟨k', fewer, whole, isDir', Nat.le_trans fewer enough⟩

/-! ## Ranks -/

/-- A directory that is made for a destination of another name. -/
def Made (host : FileSystem String) (source dest t : Text) : Prop :=
  source ≠ dest ∧ MissingUp host (dirname dest) t

/-- The links on the way and the size of the text; what is made comes after all that is there. -/
structure Ranked (host : FileSystem String) (source dest t : Text) (r : Nat × Nat) : Prop where
  links : (∃ q, Leads host t r.1 q) ∨ (Made host source dest t ∧ r.1 = maxSymlinks + 1)
  size : r.2 = weight t

def Under (r r' : Nat × Nat) : Prop := r.1 < r'.1 ∨ (r.1 = r'.1 ∧ r.2 < r'.2)

theorem Under.trans {r r' r'' : Nat × Nat} (one : Under r r') (two : Under r' r'') : Under r r'' := by
  unfold Under at *
  omega

theorem Under.irrefl (r : Nat × Nat) : ¬ Under r r := by
  unfold Under
  omega

namespace Ranked

variable {source dest : Text} {r r' : Nat × Nat}

theorem of_leads (leads : Leads host t k q) : Ranked host source dest t (k, weight t) :=
  ⟨Or.inl ⟨q, leads⟩, rfl⟩

theorem of_made (made : Made host source dest t) :
    Ranked host source dest t (maxSymlinks + 1, weight t) :=
  ⟨Or.inr ⟨made, rfl⟩, rfl⟩

theorem unique (one : Ranked host source dest t r) (two : Ranked host source dest t r') : r = r' := by
  have apart : ∀ {k q}, Leads host t k q → ¬ Made host source dest t := by
    intro k q leads made
    have absent := made.2.missing
    rw [leads.lexists] at absent
    cases absent
  refine Prod.ext ?_ (one.size.trans two.size.symm)
  rcases one.links with ⟨q, leads⟩ | ⟨made, same⟩
  · rcases two.links with ⟨q', leads'⟩ | ⟨made', _⟩
    · exact (leads.reaches.unique leads'.reaches).1
    · exact absurd made' (apart leads)
  · rcases two.links with ⟨q', leads'⟩ | ⟨_, same'⟩
    · exact absurd made (apart leads')
    · rw [same, same']

end Ranked

end GnomeBuildMeta.Initramfs
