import GnomeBuildMeta.Confext.MigratedLayer
import GnomeBuildMeta.Posix.Overlay
import GnomeBuildMeta.Posix.Within

/-!
# /etc after the migration

The mutable layer lies over the base confext and the old `/etc`.  An entry that
is not copied has to be found in the confext.  It is compared there by its path,
links followed, but the links of the confext need not be in force any more once
a neighbour has been copied.
-/

namespace GnomeBuildMeta.Confext

open GnomeBuildMeta.Control
open GnomeBuildMeta.Posix

/-! ## The booted system -/

def baseConfext (host : FileSystem String) : Posix.Tree String := host.below baseConfextEtc

/-- The overlay of the mutable layer, the base confext and the old `/etc`. -/
def migratedEtc (host layer : FileSystem String) : Posix.Tree String :=
  Overlay.lookup [layer.get, baseConfext host, etc host]

/-- The booted system has the overlay at `/etc`, and the rest of `/sysroot` around it. -/
def booted (host layer : FileSystem String) : Posix.Tree String := fun p =>
  if p.getLast? = some "etc" then migratedEtc host layer p.dropLast else host.get (p ++ ["sysroot"])

/-- What `/etc/rel` is there; links on the way are followed. -/
def lookupEtc (host layer : FileSystem String) (rel : Path String) : Option (Node String) :=
  lookPath (booted host layer) (textOf (rel ++ ["etc"]))

/-- Every protected entry is found again. -/
def Preserves (host layer : FileSystem String) : Prop :=
  ∀ rel node, Protected host rel node →
    ∃ shown, lookupEtc host layer rel = some shown ∧ SameEntry node shown

/-! ## Conditions -/

/-- Something else below the same link of the confext is copied. -/
def Beside (host : FileSystem String) (rel : Path String) : Prop :=
  ∃ link, link <:+ rel ∧ link ≠ rel ∧
    (∃ target, baseConfext host link = some (.symlink target)) ∧
    ∃ other, Copied host other ∧ link <:+ other

/-- Nothing is copied to a location or above it. -/
def Clear (host : FileSystem String) (p : Path String) : Prop :=
  ∀ other, Copied host other → ¬ other <:+ p

/-- Nothing is copied in the way at a location of the confext. -/
def Undisturbed (host : FileSystem String) (p : Path String) : Prop :=
  Clear host p ∧ ∃ node, baseConfext host p = some node ∧
    ∀ other, Copied host other → p <:+ other → node.isDir = true

/-- Reading the path in the confext stays there, and nothing is copied in the way. -/
def Through (host : FileSystem String) (rel : Path String) : Prop :=
  walkStays (baseConfext host) (Undisturbed host) maxSymlinks [] (textOf rel)

/-- Something is copied to where the reading comes to, or below. -/
def Replaced (host : FileSystem String) (rel : Path String) : Prop :=
  ∃ p other, walk (baseConfext host) false maxSymlinks [] (textOf rel) = .ok p ∧
    Copied host other ∧ p <:+ other

/-- If a link of the confext leads to the entry, nothing is copied in the way. -/
def Followed (host : FileSystem String) (rel : Path String) : Prop :=
  UnderLink (baseConfext host) rel → Through host rel

/-- What makes sure that an entry that is left is found again. -/
structure Kept (host : FileSystem String) (rel : Path String) : Prop where
  followed : Followed host rel
  notReplaced : ¬ Replaced host rel
  spelled : SameSpelling host rel

section Overlay

variable {host layer : FileSystem String} {rel : Path String}

/-! ## The overlay -/

/-- What the layer has where nothing is copied only leads to something that is. -/
theorem Made.dir_of_clear (made : Made host layer) {p : Path String} {node : Node String}
    (found : layer.get p = some node) (clear : Clear host p) : node.isDir = true := by
  cases p with
  | nil =>
      obtain ⟨perm, root⟩ := layer.get_root
      cases root.symm.trans found
      rfl
  | cons n p =>
      obtain ⟨other, copied, suffix⟩ := made.covered _ node found (List.cons_ne_nil _ _)
      obtain ⟨source, source', _⟩ := copied.exists
      have proper : n :: p ≠ other := by
        rintro rfl
        exact clear _ copied List.suffix_rfl
      obtain ⟨perm, dir⟩ := etc_dir_of_suffix source' suffix proper
      have stands := made.mirrors _ node (List.cons_ne_nil _ _) found
      rw [dir] at stands
      rw [stands]
      rfl

/-- Above an entry that exists in `/etc` the layer has nothing but directories. -/
theorem Made.dir_above (made : Made host layer) {p q : Path String} {source node : Node String}
    (exists' : etc host p = some source) (suffix : q <:+ p) (proper : q ≠ p)
    (found : layer.get q = some node) : node.isDir = true := by
  refine made.dir_of_clear found fun other copied above => ?_
  obtain ⟨leaf, there, noDir⟩ := copied.exists
  have whole := above.trans suffix
  have same := eq_of_leaf exists' whole there noDir
  subst same
  exact proper (List.IsSuffix.eq_of_length_le suffix above.length_le)

theorem layer_parent (n : String) (q : Path String) (node : Node String)
    (found : layer.get (n :: q) = some node) : (layer.get q).any Node.isDir = true :=
  layer.parent_isDirAt found

theorem baseConfext_parent (n : String) (q : Path String) (node : Node String)
    (found : baseConfext host (n :: q) = some node) :
    (baseConfext host q).any Node.isDir = true :=
  host.parent_isDirAt found

/-- A copied entry is shown as it is in the layer. -/
theorem Made.shows_copied (made : Made host layer) (copied : Copied host rel) {node : Node String}
    (found : etc host rel = some node) :
    ∃ shown, migratedEtc host layer rel = some shown ∧ SameEntry node shown := by
  obtain ⟨copy, there, same⟩ := made.faithful rel node copied found
  refine ⟨copy, ?_, same⟩
  have visible : copy.isWhiteout = false := by
    cases node <;> cases copy <;> first | rfl | exact same.elim
  cases rel with
  | nil =>
      obtain ⟨perm, root⟩ := layer.get_root
      cases root.symm.trans there
      cases node <;> exact same.elim
  | cons n p =>
      have stack : Overlay.stack (layer.get :: [baseConfext host, etc host]) p = _ :=
        Overlay.stack_cons_of_dir layer_parent (layer.parent_isDirAt there)
      simp only [migratedEtc, Overlay.lookup, stack, Overlay.top_cons_some there,
        Option.filter_some, visible]
      rfl

/-- The whole of `/etc` is a directory. -/
theorem migratedEtc_top : (migratedEtc host layer []).any Node.isDir = true := by
  obtain ⟨perm, root⟩ := layer.get_root
  have stack : Overlay.stack (layer.get :: [baseConfext host, etc host]) [] = _ :=
    Overlay.stack_cons_of_dir layer_parent layer.isDirAt_root
  simp only [migratedEtc, Overlay.lookup, stack, Overlay.top_cons_some root]
  rfl

/-- Where nothing is copied in the way, the confext is shown. -/
theorem Made.shows_undisturbed (made : Made host layer) (top : host.isDirAt baseConfextEtc = true)
    (devices : ∀ p major minor, baseConfext host p ≠ some (.chardev major minor))
    {p : Path String} (undisturbed : Undisturbed host p) :
    SameWay (baseConfext host p) (migratedEtc host layer p) := by
  obtain ⟨clear, node, found, below⟩ := undisturbed
  have layerDirs : ∀ q, q <:+ p → ∀ node', layer.get q = some node' → node'.isDir = true :=
    fun q suffix node' here => made.dir_of_clear here fun other copied above =>
      clear other copied (above.trans suffix)
  cases p with
  | nil => exact Or.inr ⟨top, migratedEtc_top⟩
  | cons n p =>
      have stack : Overlay.stack (layer.get :: baseConfext host :: [etc host]) p = _ :=
        Overlay.stack_cons layer_parent fun q suffix =>
          layerDirs q (suffix.trans (List.suffix_cons n p))
      rw [Overlay.stack_cons_of_dir baseConfext_parent (baseConfext_parent n p node found)] at stack
      change SameWay _ ((Overlay.top _ (n :: p)).filter fun shown => !shown.isWhiteout)
      rw [stack]
      cases there : layer.get (n :: p) with
      | none =>
          have shown : Overlay.top ((if (layer.get p).isSome = true then [layer.get] else []) ++
              (baseConfext host :: Overlay.stack [etc host] p)) (n :: p) = some node := by
            split
            · rw [List.singleton_append, Overlay.top_cons_none there, Overlay.top_cons_some found]
            · rw [List.nil_append, Overlay.top_cons_some found]
          have visible : node.isWhiteout = false := by
            cases node with
            | chardev major minor => exact absurd found (devices _ _ _)
            | dir _ | file _ _ | symlink _ => rfl
          left
          rw [found]
          simp only [shown, Option.filter_some, visible]
          rfl
      | some copy =>
          have isDir := layerDirs (n :: p) List.suffix_rfl copy there
          obtain ⟨perm, rfl⟩ := Node.isDir_iff.mp isDir
          obtain ⟨parent', above', _⟩ := (Option.any_eq_true _ _).mp (layer_parent n p _ there)
          obtain ⟨other, copied, suffix⟩ := made.covered _ _ there (List.cons_ne_nil _ _)
          right
          rw [found]
          refine ⟨below other copied suffix, ?_⟩
          rw [above']
          simp only [Option.isSome_some, ↓reduceIte, List.singleton_append,
            Overlay.top_cons_some there]
          rfl

/-- Where the layer has a directory, a directory is shown. -/
theorem shows_layer_dir {p : Path String} (dir : layer.isDirAt p = true) :
    (migratedEtc host layer p).any Node.isDir = true := by
  obtain ⟨perm, there⟩ := (layer.isDirAt_iff p).mp dir
  cases p with
  | nil => exact migratedEtc_top
  | cons n p =>
      have stack : Overlay.stack (layer.get :: [baseConfext host, etc host]) p = _ :=
        Overlay.stack_cons_of_dir layer_parent (layer_parent n p _ there)
      simp only [migratedEtc, Overlay.lookup, stack, Overlay.top_cons_some there]
      rfl

/-- No link is shown above a copied entry. -/
theorem Made.plain_copied (made : Made host layer) (copied : Copied host rel) :
    ¬ UnderLink (migratedEtc host layer) rel := by
  rintro ⟨q, suffix, proper, target, link⟩
  obtain ⟨leaf, there, _⟩ := copied.exists
  obtain ⟨copy, copy', _⟩ := made.faithful _ _ copied there
  have dir : (migratedEtc host layer q).any Node.isDir = true :=
    shows_layer_dir (layer.ancestor_isDirAt copy' suffix proper)
  rw [link] at dir
  cases dir

/-- Where the layer has a directory over a link of the confext, it alone is merged. -/
theorem stack_at_link {link : Path String} {target : PathText String}
    (top : host.isDirAt baseConfextEtc = true) (dir : layer.isDirAt link = true)
    (linked : baseConfext host link = some (.symlink target)) :
    ∀ tree ∈ Overlay.stack [layer.get, baseConfext host, etc host] link, tree = layer.get := by
  cases link with
  | nil =>
      obtain ⟨perm, there⟩ := (host.isDirAt_iff _).mp top
      rw [show baseConfext host [] = some (.dir perm) from there] at linked
      cases linked
  | cons n p =>
      have stack : Overlay.stack (layer.get :: [baseConfext host, etc host]) (n :: p) = _ :=
        Overlay.stack_cons_of_dir layer_parent dir
      have under : Overlay.stack (baseConfext host :: [etc host]) (n :: p) = [] := by
        change Overlay.merge (Overlay.stack (baseConfext host :: [etc host]) p) (n :: p) = []
        rw [Overlay.stack_cons_of_dir baseConfext_parent (baseConfext_parent n p _ linked)]
        exact Overlay.merge_cons_other linked rfl
      rw [stack, under]
      exact fun tree member => List.mem_singleton.mp member

/-- Below a link of the confext only copies are shown once something there is copied. -/
theorem Made.hides_beside (made : Made host layer) (top : host.isDirAt baseConfextEtc = true)
    (left : Left host rel) (beside : Beside host rel) :
    ¬ UnderLink (migratedEtc host layer) rel ∧ migratedEtc host layer rel = none := by
  obtain ⟨⟨node, protected'⟩, same⟩ := left
  obtain ⟨found, noDir⟩ := protected'.found
  obtain ⟨link, above, proper, ⟨target, linked⟩, other, copied, below⟩ := beside
  have dir : layer.isDirAt link = true := by
    obtain ⟨leaf, there, leafNoDir⟩ := copied.exists
    obtain ⟨copy, copy', _⟩ := made.faithful _ _ copied there
    refine layer.ancestor_isDirAt copy' below ?_
    rintro rfl
    obtain ⟨perm, isDir⟩ := etc_dir_of_suffix found above proper
    rw [isDir] at there
    cases there
    cases leafNoDir
  have only : ∀ tree ∈ Overlay.stack [layer.get, baseConfext host, etc host] link,
      tree = layer.get := stack_at_link top dir linked
  -- below the link every entry that is shown comes from the layer
  have alone : ∀ m q shown, link <:+ q → migratedEtc host layer (m :: q) = some shown →
      layer.get (m :: q) = some shown := by
    intro m q shown suffix there
    obtain ⟨tree, member, here⟩ := Overlay.exists_layer_of_lookup there
    rwa [only tree (Overlay.mem_stack_of_suffix suffix member)] at here
  constructor
  · rintro ⟨q, suffix, proper', target', shown⟩
    have isDir : (Node.symlink target' : Node String).isDir = true := by
      rcases List.suffix_or_suffix_of_suffix above suffix with inner | outer
      · rcases q with _ | ⟨m, q⟩
        · have root : (migratedEtc host layer []).any Node.isDir = true := migratedEtc_top
          rwa [shown] at root
        · by_cases same' : link = m :: q
          · have here : (migratedEtc host layer link).any Node.isDir = true := shows_layer_dir dir
            rwa [same', shown] at here
          · have inner' : link <:+ q := by
              rcases List.suffix_cons_iff.mp inner with equal | later
              · exact absurd equal same'
              · exact later
            exact made.dir_above found suffix proper' (alone m q _ inner' shown)
      · have here : (migratedEtc host layer q).any Node.isDir = true :=
          shows_layer_dir (Overlay.isDir_of_suffix layer_parent dir outer)
        rwa [shown] at here
    cases isDir
  · cases shown : migratedEtc host layer rel with
    | none => rfl
    | some copy =>
        rcases rel with _ | ⟨m, q⟩
        · exact absurd (List.suffix_nil.mp above) proper
        · have inner : link <:+ q := by
            rcases List.suffix_cons_iff.mp above with equal | later
            · exact absurd equal proper
            · exact later
          obtain ⟨other', copied', suffix⟩ :=
            made.covered _ _ (alone m q copy inner shown) (List.cons_ne_nil _ _)
          obtain ⟨leaf, there, _⟩ := copied'.exists
          rw [← eq_of_leaf there suffix found noDir] at copied'
          cases copied'.symm.trans same

/-! ## Looking up in the booted system -/

theorem booted_etc (p : Path String) : booted host layer (p ++ ["etc"]) = migratedEtc host layer p := by
  simp [booted]

theorem booted_grounded (top : host.isDirAt sysrootEtc = true) : Grounded (booted host layer) := by
  obtain ⟨perm, there⟩ := (host.isDirAt_iff _).mp top
  have root : (booted host layer []).any Node.isDir = true := host.parent_isDirAt there
  refine ⟨root, fun {n p node} found => ?_⟩
  rcases List.eq_nil_or_concat p with rfl | ⟨q, last, rfl⟩
  · exact root
  · rw [List.concat_eq_append] at found ⊢
    by_cases etc' : last = "etc"
    · subst etc'
      rw [← List.cons_append, booted_etc] at found
      rw [booted_etc]
      exact Overlay.lookup_parent found
    · have outside : ∀ stem : Path String, booted host layer (stem ++ [last]) =
          host.get (stem ++ [last] ++ ["sysroot"]) := by
        intro stem
        simp [booted, etc']
      rw [← List.cons_append, outside] at found
      rw [outside]
      exact host.parent_isDirAt found

/-- Under no link the overlay is looked up as it stands. -/
theorem lookupEtc_plain (top : host.isDirAt sysrootEtc = true)
    (plain : ¬ UnderLink (migratedEtc host layer) rel) :
    lookupEtc host layer rel = migratedEtc host layer rel := by
  have grounded : Grounded (booted host layer) := booted_grounded top
  rw [lookupEtc, grounded.lookPath_textOf, booted_etc]
  rintro ⟨q, suffix, proper, target, link⟩
  have noLink : ∀ p, (booted host layer p).any Node.isDir = true →
      booted host layer p ≠ some (.symlink target) := by
    intro p dir link'
    rw [link'] at dir
    cases dir
  rcases suffix_append_cases suffix with outside | ⟨inner, below, rfl⟩
  · rcases List.suffix_cons_iff.mp outside with rfl | inner
    · exact noLink ["etc"] migratedEtc_top link
    · rw [List.suffix_nil.mp inner] at link
      exact noLink [] grounded.root link
  · rw [booted_etc] at link
    exact plain ⟨inner, below, fun same => proper (congrArg (· ++ ["etc"]) same), target, link⟩

theorem baseConfext_grounded (top : host.isDirAt baseConfextEtc = true) :
    Grounded (baseConfext host) :=
  ⟨top, fun found => baseConfext_parent _ _ _ found⟩

/-- The comparison reads the confext as it is read where nothing surrounds it. -/
theorem locate_confext (top : host.isDirAt baseConfextEtc = true) (through : Through host rel) :
    host.locate false (confext rel) =
      (walk (baseConfext host) false maxSymlinks [] (textOf rel)).map (· ++ baseConfextEtc) := by
  rw [FileSystem.locate, confext, textOf_append, host.grounded.walk_textOf _ _ top]
  exact walk_mount (fun _ _ => Or.inl rfl) through

/-- The same text leads through the overlay of the booted system to the same place. -/
theorem Made.walk_booted (made : Made host layer) (etcTop : host.isDirAt sysrootEtc = true)
    (top : host.isDirAt baseConfextEtc = true)
    (devices : ∀ p major minor, baseConfext host p ≠ some (.chardev major minor))
    (through : Through host rel) :
    walk (booted host layer) false maxSymlinks [] (textOf (rel ++ ["etc"])) =
      (walk (baseConfext host) false maxSymlinks [] (textOf rel)).map (· ++ ["etc"]) := by
  have agree : ∀ q, Undisturbed host q →
      SameWay (baseConfext host q) (booted host layer (q ++ ["etc"])) := by
    intro q undisturbed
    rw [booted_etc]
    exact made.shows_undisturbed top devices undisturbed
  have etcDir : (booted host layer ["etc"]).any Node.isDir = true := migratedEtc_top
  rw [textOf_append, (booted_grounded etcTop).walk_textOf _ _ etcDir]
  exact walk_mount agree through

/-! ## Entries that are left -/

theorem clear_top (etcTop : host.isDirAt sysrootEtc = true) : Clear host [] := by
  intro other copied above
  obtain ⟨leaf, there, noDir⟩ := copied.exists
  obtain ⟨perm, dir⟩ := (host.isDirAt_iff _).mp etcTop
  rw [List.suffix_nil.mp above, show etc host [] = some (.dir perm) from dir] at there
  cases there
  cases noDir

theorem Clear.tail {n : String} {p : Path String} (clear : Clear host (n :: p)) : Clear host p :=
  fun other copied above => clear other copied (above.trans (List.suffix_cons n p))

theorem alike_not_dir {node other : Node String} (close : alike node other = true) :
    other.isDir = false := by
  cases node <;> cases other <;> first | rfl | cases close

/-- Where the comparison has found what it takes for an entry. -/
theorem Left.located (left : Left host rel) (etcTop : host.isDirAt sysrootEtc = true)
    (top : host.isDirAt baseConfextEtc = true) (through : Through host rel) {node : Node String}
    (protected' : Protected host rel node) :
    ∃ n q other, walk (baseConfext host) false maxSymlinks [] (textOf rel) = .ok (n :: q) ∧
      Clear host q ∧ baseConfext host (n :: q) = some other ∧ alike node other = true ∧
      (SameEntry node other ↔ SameSpelling host rel) := by
  obtain ⟨other, status, close, spelled⟩ := left.status protected'
  have located := locate_confext top through
  cases arrived : walk (baseConfext host) false maxSymlinks [] (textOf rel) with
  | error e =>
      rw [arrived] at located
      simp only [FileSystem.symlinkStatus, located, Except.map] at status
      cases e <;> cases status
  | ok p =>
      rw [arrived] at located
      simp only [FileSystem.symlinkStatus, located, Except.map, Except.ok.injEq] at status
      have found : baseConfext host p = some other := status
      have root : (baseConfext host []).any Node.isDir = true := top
      rcases walk_arrives (baseConfext_grounded top) (fun _ _ clear => clear.tail)
        (fun p undisturbed => undisturbed.1) root (clear_top etcTop) through arrived
        with dir | ⟨n, q, rfl, clear⟩
      · rw [found] at dir
        exact absurd dir (by simp [alike_not_dir close])
      · exact ⟨n, q, other, rfl, clear, found, close, spelled⟩

/-- Nothing is copied where the entry was found, so that it is found there again. -/
theorem Made.lookupEtc_left (made : Made host layer) (etcTop : host.isDirAt sysrootEtc = true)
    (top : host.isDirAt baseConfextEtc = true)
    (devices : ∀ p major minor, baseConfext host p ≠ some (.chardev major minor))
    (left : Left host rel) (through : Through host rel) (notReplaced : ¬ Replaced host rel)
    {node : Node String} (protected' : Protected host rel node) :
    ∃ shown, lookupEtc host layer rel = some shown ∧
      (SameEntry node shown ↔ SameSpelling host rel) := by
  obtain ⟨n, q, other, arrived, clear, found, close, spelled⟩ :=
    left.located etcTop top through protected'
  refine ⟨other, ?_, spelled⟩
  have away : ∀ third, Copied host third → ¬ n :: q <:+ third :=
    fun third copied suffix => notReplaced ⟨n :: q, third, arrived, copied, suffix⟩
  have undisturbed : Undisturbed host (n :: q) := by
    refine ⟨fun third copied above => ?_, other, found, fun third copied below =>
      absurd below (away third copied)⟩
    rcases List.suffix_cons_iff.mp above with same | inner
    · exact away third copied (same ▸ List.suffix_rfl)
    · exact clear third copied inner
  have same : migratedEtc host layer (n :: q) = some other := by
    rw [← found]
    exact (made.shows_undisturbed top devices undisturbed).other
      (by simp [found, alike_not_dir close])
  rw [lookupEtc, lookPath, made.walk_booted etcTop top devices through, arrived]
  exact (booted_etc (n :: q)).trans same

/-- An entry is not found again where something is copied to the place it was found at. -/
theorem Made.lookupEtc_replaced (made : Made host layer)
    (etcTop : host.isDirAt sysrootEtc = true) (top : host.isDirAt baseConfextEtc = true)
    (devices : ∀ p major minor, baseConfext host p ≠ some (.chardev major minor))
    (left : Left host rel) (through : Through host rel) (replaced : Replaced host rel)
    {node : Node String} (protected' : Protected host rel node) {shown : Node String}
    (looked : lookupEtc host layer rel = some shown) : ¬ SameEntry node shown := by
  intro same
  obtain ⟨n, q, other, arrived, clear, found, close, _⟩ :=
    left.located etcTop top through protected'
  obtain ⟨p, third, arrived', copied, suffix⟩ := replaced
  cases arrived.symm.trans arrived'
  have here : migratedEtc host layer (n :: q) = some shown := by
    rw [lookupEtc, lookPath, made.walk_booted etcTop top devices through, arrived] at looked
    exact (booted_etc (n :: q)).symm.trans looked
  obtain ⟨leaf, leafProtected⟩ := copied.protected
  by_cases equal : n :: q = third
  · -- the entry at that place is copied since it differs from what was found
    subst equal
    obtain ⟨shown', here', same'⟩ := made.shows_copied copied leafProtected.found.1
    cases here.symm.trans here'
    have status : host.symlinkStatus (confext (n :: q)) = .ok (some other) :=
      host.symlinkStatus_textOf found
    have differs := copied.status leafProtected status
    rw [same'.alike_eq, ← same.alike_eq, close] at differs
    cases differs
  · obtain ⟨copy, there, _⟩ := made.faithful _ _ copied leafProtected.found.1
    have dir : (migratedEtc host layer (n :: q)).any Node.isDir = true :=
      shows_layer_dir (layer.ancestor_isDirAt there suffix equal)
    rw [here] at dir
    obtain ⟨perm, rfl⟩ := Node.isDir_iff.mp dir
    cases node <;> exact same.elim

/-- An entry that no link of the confext leads to is found there without any detour. -/
theorem Left.through (left : Left host rel) (top : host.isDirAt baseConfextEtc = true)
    (followed : Followed host rel) : Through host rel := by
  by_cases plain : UnderLink (baseConfext host) rel
  · exact followed plain
  obtain ⟨⟨source, protected'⟩, same⟩ := left
  obtain ⟨found, noDir⟩ := protected'.found
  obtain ⟨node, status, nodeNoDir, _⟩ := Left.status ⟨⟨source, protected'⟩, same⟩ protected'
  have here : host.get (rel ++ baseConfextEtc) = some node := by
    have there := FileSystem.lstat_of_symlinkStatus status
    rwa [confext, host.lstat_textOf (FileSystem.plain_append top plain)] at there
  refine walkStays_textOf (baseConfext_grounded top) plain (fun q suffix _ proper => ?_) maxSymlinks
  obtain ⟨perm, there⟩ := (host.isDirAt_iff _).mp (host.isDirAt_above here suffix proper)
  refine ⟨fun other copied above => ?_, .dir perm, there, fun _ _ _ => rfl⟩
  obtain ⟨leaf, leaf', leafNoDir⟩ := copied.exists
  have equal := eq_of_leaf found (above.trans suffix) leaf' leafNoDir
  rw [equal] at copied
  cases copied.symm.trans same

/-! ## The migration -/

/--
A migration on a fresh target keeps the protected entries if each that it does
not copy is found in the confext with nothing copied in the way, nor to where it
is found.  It does not keep them if one has a copied neighbour below the same
link; and as long as nothing is in the way, the rest is needed too.
-/
theorem main_preserves {host layer : FileSystem String}
    (ran : main host ⟨none, none⟩ = (.ok (), ⟨none, some layer⟩))
    (top : host.isDirAt baseConfextEtc = true)
    (devices : ∀ p major minor, baseConfext host p ≠ some (.chardev major minor)) :
    ((∀ rel, Left host rel → Kept host rel) → Preserves host layer) ∧
      (Preserves host layer → ∀ rel, Left host rel →
        ¬ Beside host rel ∧ (Followed host rel → Kept host rel)) := by
  obtain ⟨layer', same, etcTop, made⟩ := made_of_main ran
  cases same
  constructor
  · intro condition rel node protected'
    obtain ⟨found, noDir⟩ := protected'.found
    obtain ⟨differs, decided⟩ := made.decided rel node found
    cases differs with
    | true =>
        obtain ⟨shown, there, same⟩ := made.shows_copied decided found
        refine ⟨shown, ?_, same⟩
        rw [lookupEtc_plain etcTop (made.plain_copied decided), there]
    | false =>
        have left : Left host rel := ⟨⟨node, protected'⟩, decided⟩
        have kept := condition rel left
        obtain ⟨shown, looked, spelled⟩ :=
          made.lookupEtc_left etcTop top devices left (left.through top kept.followed)
            kept.notReplaced protected'
        exact ⟨shown, looked, spelled.mpr kept.spelled⟩
  · intro preserves rel left
    obtain ⟨node, protected'⟩ := left.1
    obtain ⟨shown, found, same⟩ := preserves rel node protected'
    have apart : ¬ Beside host rel := by
      intro beside
      obtain ⟨plain, absent⟩ := made.hides_beside top left beside
      rw [lookupEtc_plain etcTop plain, absent] at found
      cases found
    refine ⟨apart, fun followed => ?_⟩
    have through := left.through top followed
    have notReplaced : ¬ Replaced host rel := fun replaced =>
      made.lookupEtc_replaced etcTop top devices left through replaced protected' found same
    obtain ⟨shown', looked, spelled⟩ :=
      made.lookupEtc_left etcTop top devices left through notReplaced protected'
    cases found.symm.trans looked
    exact ⟨followed, notReplaced, spelled.mp same⟩

end Overlay

/-- `/etc/d/f` is the file of the confext, where `d` is a link to `e`. -/
def linkEntries : List (Path String × Node String) :=
  [([], .dir 0o755),
    (["sysroot"], .dir 0o755),
    (["etc", "sysroot"], .dir 0o755),
    (["d", "etc", "sysroot"], .dir 0o755),
    (["f", "d", "etc", "sysroot"], .file ⟨0o644, 1, 0, 0⟩ [1]),
    (["usr", "sysroot"], .dir 0o755),
    (["lib", "usr", "sysroot"], .dir 0o755),
    (["confexts", "lib", "usr", "sysroot"], .dir 0o755),
    (["gnomeos-base-config", "confexts", "lib", "usr", "sysroot"], .dir 0o755),
    (baseConfextEtc, .dir 0o755),
    ("d" :: baseConfextEtc, .symlink [.name "e"]),
    ("e" :: baseConfextEtc, .dir 0o755),
    ("f" :: "e" :: baseConfextEtc, .file ⟨0o644, 2, 0, 0⟩ [1])]

/-- Beside it, a file that the confext does not have. -/
def splitHost : FileSystem String where
  entries := linkEntries ++ [(["g", "d", "etc", "sysroot"], .file ⟨0o600, 1, 0, 0⟩ [2])]
  nodup := by simp [linkEntries, baseConfextEtc]
  root := rfl
  parents := by simp [linkEntries, List.lookup_cons, List.lookup_nil, Node.isDir, baseConfextEtc]

/-- A file that the confext does not have, somewhere else. -/
def apartHost : FileSystem String where
  entries := linkEntries ++ [(["k", "etc", "sysroot"], .file ⟨0o600, 1, 0, 0⟩ [2])]
  nodup := by simp [linkEntries, baseConfextEtc]
  root := rfl
  parents := by simp [linkEntries, List.lookup_cons, List.lookup_nil, Node.isDir, baseConfextEtc]

/-- The neighbour is copied, and the file that the confext has is gone. -/
theorem neighbour_lost : ∃ host layer, main host ⟨none, none⟩ = (.ok (), ⟨none, some layer⟩) ∧
    host.isDirAt baseConfextEtc = true ∧ ¬ Preserves host layer := by
  refine ⟨splitHost, _, rfl, rfl, fun preserves => ?_⟩
  obtain ⟨shown, found, _⟩ := preserves ["f", "d"] (.file ⟨0o644, 1, 0, 0⟩ [1]) rfl
  exact nomatch found

/-- What `apartHost` has in `/etc` besides directories. -/
theorem apart_protected {rel : Path String} {node : Node String}
    (protected' : Protected apartHost rel node) : rel = ["f", "d"] ∨ rel = ["k"] := by
  obtain ⟨found, noDir⟩ := protected'.found
  have top : etc apartHost [] = some (.dir 0o755) := rfl
  have entry : rel ∈ apartHost.recursiveEntries sysrootEtc := by
    refine apartHost.mem_recursiveEntries.mpr ⟨?_, ?_⟩
    · rintro rfl
      cases top.symm.trans found
      cases noDir
    · rw [show apartHost.get (rel ++ sysrootEtc) = some node from found]
      rfl
  have all : apartHost.recursiveEntries sysrootEtc = [["d"], ["f", "d"], ["k"]] := rfl
  rw [all] at entry
  simp only [List.mem_cons, List.not_mem_nil, or_false] at entry
  rcases entry with rfl | file | other
  · cases (show etc apartHost ["d"] = some (.dir 0o755) from rfl).symm.trans found
    cases noDir
  · exact Or.inl file
  · exact Or.inr other

theorem apart_copied {rel : Path String} (copied : Copied apartHost rel) : rel = ["k"] := by
  obtain ⟨node, protected'⟩ := copied.protected
  rcases apart_protected protected' with rfl | rfl
  · cases (show modified apartHost ["f", "d"] = .ok false from rfl).symm.trans copied
  · rfl

theorem apart_undisturbed {n : String} {node : Node String} (other : n ≠ "k")
    (found : baseConfext apartHost [n] = some node) : Undisturbed apartHost [n] := by
  have differs : ["k"] ≠ [n] := by simp [other.symm]
  refine ⟨fun third copied above => ?_, node, found, fun third copied below => ?_⟩
  · rw [apart_copied copied] at above
    exact differs (above.eq_of_length rfl)
  · rw [apart_copied copied] at below
    exact absurd (below.eq_of_length rfl).symm differs

theorem apart_through : Through apartHost ["f", "d"] := by
  have first : Undisturbed apartHost ["d"] := apart_undisturbed (by decide) rfl
  have second : Undisturbed apartHost ["e"] := apart_undisturbed (by decide) rfl
  refine ⟨⟨fun _ => first, fun _ => ⟨fun more => absurd rfl more, fun _ => trivial⟩⟩, ?_⟩
  intro dir target rest stopped
  cases stopped
  refine ⟨by decide, ⟨fun _ => second, fun _ => ⟨fun more => absurd rfl more, fun _ => trivial⟩⟩, ?_⟩
  exact fun _ _ _ impossible => nomatch impossible

/-- Without a neighbour that differs, the file of the confext is found through the link. -/
theorem neighbourless_kept : ∃ layer, main apartHost ⟨none, none⟩ = (.ok (), ⟨none, some layer⟩) ∧
    Preserves apartHost layer := by
  refine ⟨_, rfl, (main_preserves rfl rfl ?_).1 fun rel left => ?_⟩
  · intro p major minor found
    have member := (apartHost.mem_entries_iff _ _).mpr
      (found : apartHost.get (p ++ baseConfextEtc) = some (.chardev major minor))
    simp [apartHost, linkEntries] at member
  · obtain ⟨⟨node, protected'⟩, same⟩ := left
    rcases apart_protected protected' with rfl | rfl
    · refine ⟨fun _ => apart_through, ?_, ?_⟩
      · rintro ⟨p, other, arrived, copied, suffix⟩
        cases arrived
        rw [apart_copied copied] at suffix
        exact absurd suffix.length_le (by decide)
      · intro target target' link
        cases link
    · cases same

end GnomeBuildMeta.Confext
