import GnomeBuildMeta.Verity.SwapVerity

/-!
# Swapping as a transaction

A failed swap leaves the active table alone, and a successful one changes
nothing but the two devices.  What is not kept is that nothing is reloaded once
the parameters could not be updated: a reload task is built all the same.
-/

namespace GnomeBuildMeta.Verity

open GnomeBuildMeta.Control

/-! ## Cutting at spaces -/

theorem components_ne_nil (cuts : Nat) (s : CString) : components cuts s ≠ [] := by
  induction cuts, s using components.induct with
  | case1 cuts => simp [components]
  | case2 c rest => simp [components]
  | case3 cuts rest ih => simp [components]
  | case4 cuts c rest notSpace none' ih => exact absurd none' ih
  | case5 cuts c rest notSpace first others cut ih => simp [components, notSpace, cut]

theorem components_length (cuts : Nat) (s : CString) :
    (components cuts s).length = min cuts (s.count ' ') + 1 := by
  induction cuts, s using components.induct with
  | case1 cuts => simp [components]
  | case2 c rest => simp [components]
  | case3 cuts rest ih =>
      simp only [components, ↓reduceIte, List.length_cons, ih, List.count_cons_self]
      omega
  | case4 cuts c rest notSpace none' ih => exact absurd none' (components_ne_nil _ _)
  | case5 cuts c rest notSpace first others cut ih =>
      rw [cut, List.length_cons] at ih
      simp only [components, notSpace, ↓reduceIte, cut, List.length_cons]
      rw [List.count_cons_of_ne notSpace]
      exact ih

/-- Joining the components with spaces gives the text back. -/
theorem intercalate_components (cuts : Nat) (s : CString) :
    List.intercalate [' '] (components cuts s) = s := by
  induction cuts, s using components.induct with
  | case1 cuts => simp [components]
  | case2 c rest => simp [components]
  | case3 cuts rest ih =>
      obtain ⟨first, others, cut⟩ := List.exists_cons_of_ne_nil (components_ne_nil cuts rest)
      rw [cut] at ih
      simp only [components, ↓reduceIte, cut, List.intercalate_cons_cons, ih, List.nil_append,
        List.singleton_append]
  | case4 cuts c rest notSpace none' ih => exact absurd none' (components_ne_nil _ _)
  | case5 cuts c rest notSpace first others cut ih =>
      rw [cut] at ih
      simp only [components, notSpace, ↓reduceIte, cut]
      cases others with
      | nil =>
          rw [List.intercalate_singleton] at ih ⊢
          rw [ih]
      | cons second others =>
          rw [List.intercalate_cons_cons] at ih ⊢
          rw [← ih]
          rfl

/-- The first of several components ends at the first space. -/
theorem components_cons {cuts : Nat} {s first second : CString} {others : List CString}
    (cut : components (cuts + 1) s = first :: second :: others) :
    ∃ rest, s = first ++ ' ' :: rest ∧ ' ' ∉ first ∧ components cuts rest = second :: others := by
  induction s generalizing first with
  | nil => simp [components] at cut
  | cons c s ih =>
      by_cases space : c = ' '
      · subst space
        simp only [components, ↓reduceIte, List.cons.injEq] at cut
        obtain ⟨rfl, cut⟩ := cut
        exact ⟨s, rfl, by simp, cut⟩
      · obtain ⟨head, tail, inner⟩ := List.exists_cons_of_ne_nil (components_ne_nil (cuts + 1) s)
        simp only [components, space, ↓reduceIte, inner, List.cons.injEq] at cut
        obtain ⟨rfl, rfl⟩ := cut
        obtain ⟨rest, rfl, noSpace, later⟩ := ih inner
        refine ⟨rest, rfl, ?_, later⟩
        simp [noSpace, Ne.symm space]

theorem components_append {first : CString} (noSpace : ' ' ∉ first) (cuts : Nat) (rest : CString) :
    components (cuts + 1) (first ++ ' ' :: rest) = first :: components cuts rest := by
  induction first with
  | nil => simp [components]
  | cons c first ih =>
      have notSpace : c ≠ ' ' := fun space => noSpace (space ▸ List.mem_cons_self)
      have later := ih fun inside => noSpace (List.mem_cons_of_mem _ inside)
      rw [List.cons_append, components, if_neg notSpace, later]

/-! ## Updating the parameters -/

/-- The node can be stat'ed and its number be formatted. -/
def NodeOutcome.Names (o : NodeOutcome) (nodePath : CString) : Prop :=
  (o.stat nodePath).isSome = true ∧ o.format = true

/-- The text has enough fields, both nodes have a number, and no allocation fails. -/
structure Updatable (o : Outcomes) (params newDev newHashDev : CString) : Prop where
  copied : o.copyParams = true
  fields : 9 ≤ params.count ' '
  newDev : o.newDev.Names newDev
  newHashDev : o.newHashDev.Names newHashDev
  formatted : o.formatParams = true

/-- Only the second and the third field differ, and they are the numbers of the two nodes. -/
def Replaced (o : Outcomes) (newDev newHashDev params params' : CString) : Prop :=
  ∃ field dev hashDev rest rdev hashRdev,
    ' ' ∉ field ∧ ' ' ∉ dev ∧ ' ' ∉ hashDev ∧
      params = field ++ ' ' :: (dev ++ ' ' :: (hashDev ++ ' ' :: rest)) ∧
      o.newDev.stat newDev = some rdev ∧ o.newHashDev.stat newHashDev = some hashRdev ∧
      params' = field ++ ' ' :: (deviceNumber rdev ++ ' ' :: (deviceNumber hashRdev ++ ' ' :: rest))

theorem deviceName_isSome {o : NodeOutcome} {nodePath : CString} :
    (deviceName o nodePath).isSome = true ↔ o.Names nodePath := by
  unfold deviceName NodeOutcome.Names
  cases o.stat nodePath with
  | none => simp
  | some rdev => cases o.format <;> simp

theorem deviceName_some {o : NodeOutcome} {nodePath name : CString}
    (named : deviceName o nodePath = some name) :
    ∃ rdev, o.stat nodePath = some rdev ∧ name = deviceNumber rdev := by
  unfold deviceName at named
  split at named
  · cases named
  · rename_i rdev found
    split at named
    · cases named
      exact ⟨rdev, found, rfl⟩
    · cases named

theorem components_nine {params : CString} (fields : 9 ≤ params.count ' ') :
    ∃ p0 p1 p2 p3 p4 p5 p6 p7 p8 p9,
      components 9 params = [p0, p1, p2, p3, p4, p5, p6, p7, p8, p9] := by
  have length := components_length 9 params
  rw [Nat.min_eq_left fields] at length
  match found : components 9 params, length with
  | [p0, p1, p2, p3, p4, p5, p6, p7, p8, p9], _ =>
      exact ⟨p0, p1, p2, p3, p4, p5, p6, p7, p8, p9, rfl⟩

/-- Everything that has to go well for `update_params` to return a text. -/
theorem updateParams_some {o : Outcomes} {params newDev newHashDev params' : CString}
    (updated : updateParams o params newDev newHashDev = some params') :
    o.copyParams = true ∧ o.formatParams = true ∧
      ∃ p0 p1 p2 p3 p4 p5 p6 p7 p8 p9 dev hashDev,
        components 9 params = [p0, p1, p2, p3, p4, p5, p6, p7, p8, p9] ∧
        deviceName o.newDev newDev = some dev ∧ deviceName o.newHashDev newHashDev = some hashDev ∧
        params' = List.intercalate [' '] [p0, dev, hashDev, p3, p4, p5, p6, p7, p8, p9] := by
  unfold updateParams at updated
  split at updated
  · cases updated
  · rename_i copied
    split at updated
    · rename_i p0 p1 p2 p3 p4 p5 p6 p7 p8 p9 cut
      split at updated
      · cases updated
      · rename_i dev named
        split at updated
        · cases updated
        · rename_i hashDev hashNamed
          split at updated
          · rename_i formatted
            cases updated
            exact ⟨by simpa using copied, formatted, p0, p1, p2, p3, p4, p5, p6, p7, p8, p9, dev,
              hashDev, cut, named, hashNamed, rfl⟩
          · cases updated
    · cases updated

theorem updateParams_isSome_iff {o : Outcomes} {params newDev newHashDev : CString} :
    (updateParams o params newDev newHashDev).isSome = true ↔
      Updatable o params newDev newHashDev := by
  constructor
  · intro isSome
    obtain ⟨params', updated⟩ := Option.isSome_iff_exists.mp isSome
    obtain ⟨copied, formatted, p0, p1, p2, p3, p4, p5, p6, p7, p8, p9, dev, hashDev, cut, named,
      hashNamed, _⟩ := updateParams_some updated
    refine ⟨copied, ?_, deviceName_isSome.mp (by rw [named]; rfl),
      deviceName_isSome.mp (by rw [hashNamed]; rfl), formatted⟩
    have length := components_length 9 params
    rw [cut] at length
    simp only [List.length_cons, List.length_nil] at length
    omega
  · rintro ⟨copied, fields, newDev', newHashDev', formatted⟩
    obtain ⟨p0, p1, p2, p3, p4, p5, p6, p7, p8, p9, cut⟩ := components_nine fields
    obtain ⟨dev, named⟩ := Option.isSome_iff_exists.mp (deviceName_isSome.mpr newDev')
    obtain ⟨hashDev, hashNamed⟩ := Option.isSome_iff_exists.mp (deviceName_isSome.mpr newHashDev')
    simp [updateParams, copied, cut, named, hashNamed, formatted]

theorem updateParams_replaced {o : Outcomes} {params newDev newHashDev params' : CString}
    (updated : updateParams o params newDev newHashDev = some params') :
    Replaced o newDev newHashDev params params' := by
  obtain ⟨_, _, p0, p1, p2, p3, p4, p5, p6, p7, p8, p9, dev, hashDev, cut, named, hashNamed, rfl⟩ :=
    updateParams_some updated
  obtain ⟨rdev, found, rfl⟩ := deviceName_some named
  obtain ⟨hashRdev, hashFound, rfl⟩ := deviceName_some hashNamed
  obtain ⟨s1, split0, noSpace0, cut1⟩ := components_cons cut
  obtain ⟨s2, split1, noSpace1, cut2⟩ := components_cons cut1
  obtain ⟨s3, split2, noSpace2, cut3⟩ := components_cons cut2
  have rest := intercalate_components 6 s3
  rw [cut3] at rest
  refine ⟨p0, p1, p2, s3, rdev, hashRdev, noSpace0, noSpace1, noSpace2, ?_, found, hashFound, ?_⟩
  · rw [split0, split1, split2]
  · simp only [List.intercalate_cons_cons, List.append_assoc, List.singleton_append] at rest ⊢
    rw [rest]

/-- No allocation of `update_params` fails. -/
structure Outcomes.Roomy (o : Outcomes) : Prop where
  copied : o.copyParams = true
  newDev : o.newDev.format = true
  newHashDev : o.newHashDev.format = true
  formatted : o.formatParams = true

theorem deviceNumber_noSpace (rdev : UInt64) : ' ' ∉ deviceNumber rdev := by
  have digits : ∀ n : Nat, ' ' ∉ (Nat.repr n).toList := by
    intro n member
    rw [Nat.toList_repr] at member
    have digit := Nat.isDigit_of_mem_toDigits (by decide) (by decide) member
    exact absurd digit (by decide)
  intro member
  rcases List.mem_append.mp member with inMajor | later
  · exact digits _ inMajor
  · rcases List.mem_cons.mp later with colon | inMinor
    · exact absurd colon (by decide)
    · exact digits _ inMinor

/-- Updating goes over the two fields, so what was in them before makes no difference. -/
theorem updateParams_replaced_again {o o' : Outcomes} {params newDev newHashDev params' : CString}
    (updated : updateParams o params newDev newHashDev = some params') (newDev' newHashDev' : CString) :
    updateParams o' params' newDev' newHashDev' = updateParams o' params newDev' newHashDev' := by
  obtain ⟨field, dev, hashDev, rest, rdev, hashRdev, noSpace, devPlain, hashPlain, rfl, _, _, rfl⟩ :=
    updateParams_replaced updated
  have before : components 9 (field ++ ' ' :: (dev ++ ' ' :: (hashDev ++ ' ' :: rest))) =
      field :: dev :: hashDev :: components 6 rest := by
    rw [components_append noSpace, components_append devPlain, components_append hashPlain]
  have after : components 9 (field ++ ' ' :: (deviceNumber rdev ++ ' ' ::
      (deviceNumber hashRdev ++ ' ' :: rest))) =
        field :: deviceNumber rdev :: deviceNumber hashRdev :: components 6 rest := by
    rw [components_append noSpace, components_append (deviceNumber_noSpace rdev),
      components_append (deviceNumber_noSpace hashRdev)]
  obtain ⟨_, _, p0, p1, p2, p3, p4, p5, p6, p7, p8, p9, _, _, cut, _⟩ := updateParams_some updated
  rw [before] at cut
  obtain ⟨_, _, _, fields⟩ : field = p0 ∧ dev = p1 ∧ hashDev = p2 ∧
      components 6 rest = [p3, p4, p5, p6, p7, p8, p9] := by simpa using cut
  rw [updateParams, updateParams, before, after, fields]

/--
Only too few fields make an update fail, and it leaves everything but the text
between the first and the third space as it is.
-/
theorem updateParams_splices {o : Outcomes} {params newDev newHashDev : CString} {rdev hashRdev : UInt64}
    (found : o.newDev.stat newDev = some rdev) (hashFound : o.newHashDev.stat newHashDev = some hashRdev) :
    (updateParams o params newDev newHashDev = none ↔ params.count ' ' < 9 ∨ ¬ o.Roomy) ∧
      ∀ params', updateParams o params newDev newHashDev = some params' →
        (∃ field dev hashDev rest, ' ' ∉ field ∧ ' ' ∉ dev ∧ ' ' ∉ hashDev ∧
          params = field ++ ' ' :: (dev ++ ' ' :: (hashDev ++ ' ' :: rest)) ∧
          params' = field ++ ' ' :: (deviceNumber rdev ++ ' ' :: (deviceNumber hashRdev ++ ' ' :: rest))) ∧
        ∀ o' newDev' newHashDev',
          updateParams o' params' newDev' newHashDev' = updateParams o' params newDev' newHashDev' := by
  have updatable : Updatable o params newDev newHashDev ↔ 9 ≤ params.count ' ' ∧ o.Roomy := by
    constructor
    · rintro ⟨copied, fields, ⟨_, devFormat⟩, ⟨_, hashFormat⟩, formatted⟩
      exact ⟨fields, copied, devFormat, hashFormat, formatted⟩
    · rintro ⟨fields, copied, devFormat, hashFormat, formatted⟩
      exact ⟨copied, fields, ⟨by rw [found]; rfl, devFormat⟩, ⟨by rw [hashFound]; rfl, hashFormat⟩,
        formatted⟩
  constructor
  · rw [← Option.not_isSome_iff_eq_none, updateParams_isSome_iff, updatable, not_and_or, Nat.not_le]
  · intro params' updated
    refine ⟨?_, fun o' newDev' newHashDev' => updateParams_replaced_again updated newDev' newHashDev'⟩
    obtain ⟨field, dev, hashDev, rest, rdev', hashRdev', noSpace, devPlain, hashPlain, split, found',
      hashFound', same⟩ := updateParams_replaced updated
    cases found.symm.trans found'
    cases hashFound.symm.trans hashFound'
    exact ⟨field, dev, hashDev, rest, noSpace, devPlain, hashPlain, split, same⟩

/-! ## The tasks -/

def LibCall.kind : LibCall → TaskKind
  | .create kind => kind
  | .run kind _ _ => kind

/-- The device is as it was, and no task for reloading was built or run. -/
def Quiet (d : Device) (m : Machine) : Prop :=
  m.device = d ∧ ∀ c ∈ m.calls, c.kind ≠ .reload

/-- The calls that read the table succeed and it is one verity target. -/
structure TableRead (o : Outcomes) (d : Device) (params : CString) (start size : Nat) : Prop where
  created : o.table.create = true
  named : o.table.setName = true
  ran : o.table.run = true
  info : o.getInfo = true
  copied : o.copyTable = true
  table : d.active = [⟨start, size, "verity", params⟩]

theorem verityTarget_some {table : List Target} {params : CString} {start size : Nat} :
    verityTarget table = some (params, start, size) ↔ table = [⟨start, size, "verity", params⟩] := by
  match table with
  | [] => simp [verityTarget]
  | [target] =>
      obtain ⟨start', size', targetType, params'⟩ := target
      by_cases verity : targetType = "verity"
      · simp [verityTarget, verity, and_comm, and_assoc]
      · simp [verityTarget, verity]
  | _ :: _ :: _ => simp [verityTarget]

section Tasks

variable {P R : Machine → Prop}

theorem require_decided (succeeds : Bool) : (Fallible.require succeeds).Decided P succeeds P := by
  cases succeeds <;> exact Program.Decided.outside _

theorem create_decided {kind : TaskKind} {outcome : TaskOutcome}
    (step : ∀ m, P m → P { m with calls := .create kind :: m.calls }) :
    (Fallible.create kind outcome).Decided P outcome.create P := by
  have two := (require_decided (P := P) outcome.create).bind
    fun _ => Program.Decided.update (ε := Unit) step
  rw [Bool.and_true] at two
  exact two

/-- Running a task is noted first; the device changes only if it succeeds. -/
theorem run_ensures {kind : TaskKind} {name : CString} {request : Option Request}
    {outcome : TaskOutcome} {Q : Except Unit Unit → Machine → Prop}
    (noted : ∀ m, P m → R { m with calls := .run kind name request :: m.calls })
    (failed : outcome.run = false → ∀ e m, R m → Q (.error e) m)
    (done : outcome.run = true → ∀ m, R m →
      Q (.ok ()) { m with device := m.device.perform kind request }) :
    (Fallible.run kind name request outcome).Ensures P Q :=
  (Program.Decided.update noted).ensures_bind (fun impossible => nomatch impossible) fun _ _ =>
    (require_decided outcome.run).ensures_bind failed fun ran _ => done ran

end Tasks

/-- The table is read without consequences, and exactly if `TableRead` says so. -/
theorem getParams_spec (o : Outcomes) (name : CString) (d : Device) :
    (getParams o name).Ensures (Quiet d) fun result m => Quiet d m ∧
      ∀ params start size, result = .ok (params, start, size) ↔ TableRead o d params start size := by
  have failed : ∀ (m : Machine) (e : Unit), Quiet d m → (∀ p s z, ¬ TableRead o d p s z) →
      Quiet d m ∧ ∀ params start size,
        (Except.error e : Except Unit (CString × Nat × Nat)) = .ok (params, start, size) ↔
          TableRead o d params start size := by
    intro m e quiet none'
    exact ⟨quiet, fun p s z => ⟨fun impossible => (nomatch impossible), fun read =>
      absurd read (none' p s z)⟩⟩
  have noted : ∀ (m : Machine) (c : LibCall), c.kind ≠ .reload → Quiet d m →
      Quiet d { m with calls := c :: m.calls } := by
    rintro m c other ⟨same, quiet⟩
    refine ⟨same, fun c' member => ?_⟩
    rcases List.mem_cons.mp member with rfl | earlier
    · exact other
    · exact quiet c' earlier
  refine (create_decided fun m quiet => noted m _ (by decide) quiet).ensures_bind
    (fun failing e m quiet => failed m e quiet fun _ _ _ read =>
      absurd (failing.symm.trans read.created) (by decide)) fun created _ => ?_
  refine (require_decided _).ensures_bind
    (fun failing e m quiet => failed m e quiet fun _ _ _ read =>
      absurd (failing.symm.trans read.named) (by decide)) fun named _ => ?_
  have ran : (Fallible.run .table name none o.table).Decided (Quiet d) o.table.run (Quiet d) :=
    run_ensures (fun m => noted m (.run .table name none) (by simp [LibCall.kind]))
      (fun failing _ m quiet => ⟨quiet, failing.symm⟩) (fun ran m quiet => ⟨quiet, ran.symm⟩)
  refine ran.ensures_bind
    (fun failing e m quiet => failed m e quiet fun _ _ _ read =>
      absurd (failing.symm.trans read.ran) (by decide)) fun ran _ => ?_
  refine (require_decided _).ensures_bind
    (fun failing e m quiet => failed m e quiet fun _ _ _ read =>
      absurd (failing.symm.trans read.info) (by decide)) fun info _ => ?_
  refine Program.Ensures.bind (fun found m => Quiet d m ∧ verityTarget d.active = some found)
    ?_ fun found => ?_
  · intro m quiet
    simp only [quiet.1]
    cases found : verityTarget d.active with
    | none =>
        refine failed m () quiet fun p s z read => ?_
        rw [verityTarget_some.mpr read.table] at found
        cases found
    | some target => exact ⟨quiet, rfl⟩
  · obtain ⟨params, start, size⟩ := found
    refine (require_decided _).ensures_bind ?_ ?_
    · rintro failing e m ⟨quiet, _⟩
      exact failed m e quiet fun _ _ _ read => absurd (failing.symm.trans read.copied) (by decide)
    · rintro copied _ m ⟨quiet, found⟩
      refine ⟨quiet, fun p s z => ?_⟩
      have table := verityTarget_some.mp found
      constructor
      · intro same
        cases same
        exact ⟨created, named, ran, info, copied, table⟩
      · rintro ⟨_, _, _, _, _, table'⟩
        have same := table.symm.trans table'
        simp only [List.cons.injEq, Target.mk.injEq, and_true, true_and] at same
        obtain ⟨rfl, rfl, rfl⟩ := same
        rfl

/-! ## Reloading and resuming -/

/-- The active table is as it was, and a reload task was built, for nothing but the request. -/
structure Reloading (d : Device) (request : Request) (m : Machine) : Prop where
  active : m.device.active = d.active
  created : .create .reload ∈ m.calls
  requested : ∀ name request', .run .reload name request' ∈ m.calls → request' = some request

theorem Reloading.note {d : Device} {request : Request} {m : Machine} {c : LibCall}
    (reloading : Reloading d request m)
    (same : ∀ name request', c = .run .reload name request' → request' = some request) :
    Reloading d request { m with calls := c :: m.calls } := by
  refine ⟨reloading.active, List.mem_cons_of_mem _ reloading.created, ?_⟩
  intro name request' member
  rcases List.mem_cons.mp member with here | earlier
  · exact same name request' here.symm
  · exact reloading.requested name request' earlier

/-- How the attempt to load the request and to make it active ends. -/
def Tried (o : Outcomes) (d : Device) (request : Request) (result : Except Unit Unit)
    (m : Machine) : Prop :=
  (Quiet d m ∧ result = .error () ∧ o.reload.create = false) ∨
    (o.reload.create = true ∧ .create .reload ∈ m.calls ∧
      (∀ name request', .run .reload name request' ∈ m.calls → request' = some request) ∧
      m.device.active = if result.isOk then [request.target] else d.active)

theorem Reloading.tried {o : Outcomes} {d : Device} {request : Request} {m : Machine} (e : Unit)
    (created : o.reload.create = true) (reloading : Reloading d request m) :
    Tried o d request (.error e) m :=
  Or.inr ⟨created, reloading.created, reloading.requested, reloading.active⟩

/-- Reloading lets the requested target wait, if it goes well. -/
theorem reloadParams_spec (o : Outcomes) (name : CString) (params : Option CString)
    (start size : Nat) (d : Device) :
    (reloadParams o name params start size).Ensures (Quiet d) fun result m =>
      match result with
      | .ok _ => o.reload.create = true ∧ Reloading d ⟨start, size, "verity", params⟩ m ∧
          m.device.inactive = some [Request.target ⟨start, size, "verity", params⟩]
      | .error e => Tried o d ⟨start, size, "verity", params⟩ (.error e) m := by
  refine Program.Ensures.bind (fun _ m => o.reload.create = true ∧
    Reloading d ⟨start, size, "verity", params⟩ m) ?_ fun _ => ?_
  · refine (require_decided o.reload.create).ensures_bind ?_ ?_
    · intro notCreated e m quiet
      exact Or.inl ⟨quiet, rfl, notCreated⟩
    · intro created _ m quiet
      refine ⟨created, congrArg Device.active quiet.1, List.mem_cons_self, ?_⟩
      intro name' request member
      rcases List.mem_cons.mp member with impossible | earlier
      · cases impossible
      · exact absurd rfl (quiet.2 _ earlier)
  refine (require_decided _).ensures_bind (fun _ e m holds => holds.2.tried e holds.1) fun _ _ => ?_
  refine (require_decided _).ensures_bind (fun _ e m holds => holds.2.tried e holds.1) fun _ _ => ?_
  refine (require_decided _).ensures_bind (fun _ e m holds => holds.2.tried e holds.1) fun _ _ => ?_
  refine run_ensures (R := fun m => o.reload.create = true ∧
    Reloading d ⟨start, size, "verity", params⟩ m) ?_
    (fun _ e m holds => holds.2.tried e holds.1) ?_
  · rintro m ⟨created, reloading⟩
    refine ⟨created, reloading.note ?_⟩
    intro name' request same
    cases same
    rfl
  · rintro _ m ⟨created, reloading⟩
    exact ⟨created, ⟨reloading.active, reloading.created, reloading.requested⟩, rfl⟩

/-- Resuming makes the waiting table the active one, or changes nothing. -/
theorem resume_spec (o : Outcomes) (name : CString) (d : Device) (request : Request) :
    (resume o name).Ensures (fun m => o.reload.create = true ∧ Reloading d request m ∧
      m.device.inactive = some [request.target]) (Tried o d request) := by
  have noted : ∀ m (c : LibCall), c.kind = .resume →
      o.reload.create = true ∧ Reloading d request m ∧
        m.device.inactive = some [request.target] →
      o.reload.create = true ∧ Reloading d request { m with calls := c :: m.calls } ∧
        m.device.inactive = some [request.target] := by
    rintro m c kind ⟨created, reloading, waiting⟩
    refine ⟨created, reloading.note ?_, waiting⟩
    rintro name' request' rfl
    cases kind
  refine (create_decided fun m holds => noted m (.create .resume) rfl holds).ensures_bind
    (fun _ e m holds => holds.2.1.tried e holds.1) fun _ _ => ?_
  refine (require_decided _).ensures_bind (fun _ e m holds => holds.2.1.tried e holds.1) fun _ _ => ?_
  refine run_ensures (R := fun m => o.reload.create = true ∧ Reloading d request m ∧
      m.device.inactive = some [request.target])
    (fun m holds => noted m (.run .resume name none) rfl holds)
    (fun _ e m holds => holds.2.1.tried e holds.1) ?_
  rintro _ m ⟨created, reloading, waiting⟩
  refine Or.inr ⟨created, reloading.created, reloading.requested, ?_⟩
  simp only [Device.perform, waiting]
  rfl

/-! ## The whole swap -/

/-- The table is left alone if it cannot be read; otherwise the updated target is tried. -/
theorem swapDevices_spec (o : Outcomes) (name newDev newHashDev : CString) (d : Device) :
    (swapDevices o name newDev newHashDev).Ensures (Quiet d) fun result m =>
      (∃ params start size, TableRead o d params start size ∧
        Tried o d ⟨start, size, "verity", updateParams o params newDev newHashDev⟩ result m) ∨
      (Quiet d m ∧ result = .error () ∧ ∀ params start size, ¬ TableRead o d params start size) := by
  refine Program.Ensures.bind (fun found m => Quiet d m ∧ TableRead o d found.1 found.2.1 found.2.2)
    ((getParams_spec o name d).cases ?_ ?_) ?_
  · rintro ⟨params, start, size⟩ m ⟨quiet, read⟩
    exact ⟨quiet, (read params start size).mp rfl⟩
  · rintro e m ⟨quiet, read⟩
    exact Or.inr ⟨quiet, rfl, fun params start size table =>
      nomatch (read params start size).mpr table⟩
  · rintro ⟨params, start, size⟩ m ⟨quiet, table⟩
    refine Or.inl ⟨params, start, size, table, ?_⟩
    exact Program.Ensures.bind _ ((reloadParams_spec o name _ start size d).cases
      (fun _ _ waiting => waiting) fun _ _ tried => tried) (fun _ => resume_spec o name d _) m quiet

/-- What the swap guarantees, whichever of its calls fail. -/
structure Transaction (o : Outcomes) (newDev newHashDev : CString) (d : Device)
    (result : Except Unit Unit) (m : Machine) : Prop where
  failed : result.isOk = false → m.device.active = d.active
  complete : ∀ name' request, .run .reload name' request ∈ m.calls →
    ∃ start size params params', d.active = [⟨start, size, "verity", params⟩] ∧
      request = some ⟨start, size, "verity", some params'⟩ ∧
      Replaced o newDev newHashDev params params'
  early : ∀ params start size, TableRead o d params start size →
    updateParams o params newDev newHashDev = none →
      result.isOk = false ∧ .create .reload ∉ m.calls
  succeeded : result.isOk = true →
    ∃ start size params params', d.active = [⟨start, size, "verity", params⟩] ∧
      m.device.active = [⟨start, size, "verity", params'⟩] ∧
      Replaced o newDev newHashDev params params'

/-- Trying the updated target is a transaction if there are parameters, or no task was built. -/
theorem Tried.transaction_iff {o : Outcomes} {d : Device} {params newDev newHashDev : CString}
    {start size : Nat} {result : Except Unit Unit} {m : Machine}
    (read : TableRead o d params start size)
    (tried : Tried o d ⟨start, size, "verity", updateParams o params newDev newHashDev⟩ result m) :
    Transaction o newDev newHashDev d result m ↔
      (o.reload.create = true → Updatable o params newDev newHashDev) := by
  constructor
  · intro transaction create
    rcases tried with ⟨_, _, notCreated⟩ | ⟨_, built, _, _⟩
    · rw [create] at notCreated
      cases notCreated
    · rw [← updateParams_isSome_iff]
      by_contra missing
      rw [Bool.not_eq_true, Option.isSome_eq_false_iff, Option.isNone_iff_eq_none] at missing
      exact (transaction.early params start size read missing).2 built
  · intro updatable
    rcases tried with ⟨quiet, rfl, _⟩ | ⟨created, built, requested, active⟩
    · refine ⟨fun _ => congrArg Device.active quiet.1, ?_, ?_, fun impossible => nomatch impossible⟩
      · intro name request member
        exact absurd rfl (quiet.2 _ member)
      · intro _ _ _ _ _
        exact ⟨rfl, fun member => quiet.2 _ member rfl⟩
    · obtain ⟨params', updated⟩ :=
        Option.isSome_iff_exists.mp (updateParams_isSome_iff.mpr (updatable created))
      have replaced := updateParams_replaced updated
      rw [updated] at requested active
      refine ⟨?_, ?_, ?_, ?_⟩
      · intro failed
        rw [active, failed]
        rfl
      · intro name request member
        exact ⟨start, size, params, params', read.table, requested name request member, replaced⟩
      · intro params'' start' size' read' missing
        have same := read.table.symm.trans read'.table
        simp only [List.cons.injEq, Target.mk.injEq, and_true, true_and] at same
        obtain ⟨_, _, rfl⟩ := same
        rw [updated] at missing
        cases missing
      · intro ended
        refine ⟨start, size, params, params', read.table, ?_, replaced⟩
        rw [active, ended]
        rfl

/--
`swap_devices` is a transaction exactly if, whenever the table is read and a
reload task can be built, the parameters can be updated.
-/
theorem swapDevices_transaction_iff (o : Outcomes) (name newDev newHashDev : CString) (d : Device) :
    Transaction o newDev newHashDev d (swapDevices o name newDev newHashDev ⟨d, []⟩).1
        (swapDevices o name newDev newHashDev ⟨d, []⟩).2 ↔
      ∀ params start size, TableRead o d params start size → o.reload.create = true →
        Updatable o params newDev newHashDev := by
  have spec := swapDevices_spec o name newDev newHashDev d ⟨d, []⟩
    ⟨rfl, fun c member => nomatch member⟩
  rcases spec with ⟨params, start, size, read, tried⟩ | ⟨quiet, failed, unread⟩
  · refine (tried.transaction_iff read).trans ⟨?_, fun updatable => updatable params start size read⟩
    intro updatable params' start' size' read'
    have same := read.table.symm.trans read'.table
    simp only [List.cons.injEq, Target.mk.injEq, and_true, true_and] at same
    obtain ⟨_, _, rfl⟩ := same
    exact updatable
  · refine iff_of_true ?_ fun params start size read => absurd read (unread params start size)
    rw [failed]
    refine ⟨fun _ => congrArg Device.active quiet.1, ?_, ?_, fun impossible => nomatch impossible⟩
    · intro name request member
      exact absurd rfl (quiet.2 _ member)
    · intro params start size read
      exact absurd read (unread params start size)

/-- Every call succeeds that can; a target without parameters is refused. -/
def goodOutcomes : Outcomes where
  table := ⟨true, true, true⟩
  getInfo := true
  copyTable := true
  copyParams := true
  newDev := ⟨fun _ => some 0x801, true⟩
  newHashDev := ⟨fun _ => some 0x802, true⟩
  formatParams := true
  reload := ⟨true, true, true⟩
  setRo := true
  addTarget := fun request => request.params.isSome
  resume := ⟨true, true, true⟩

def verityDevice (params : String) : Device := ⟨[⟨0, 2048, "verity", params.toList⟩], none⟩

/-- Optional parameters, an empty field and a blank at the end stay where they are. -/
theorem optional_params_kept : ∃ params', updateParams goodOutcomes
    "1 8:3 8:4 4096 4096 7 1 sha256 ab  cd 1 panic_on_corruption ".toList "/dev/usr".toList
      "/dev/verity".toList = some params' ∧
    ∃ field dev hashDev rest, ' ' ∉ field ∧ ' ' ∉ dev ∧ ' ' ∉ hashDev ∧
      "1 8:3 8:4 4096 4096 7 1 sha256 ab  cd 1 panic_on_corruption ".toList =
        field ++ ' ' :: (dev ++ ' ' :: (hashDev ++ ' ' :: rest)) ∧
      params' = field ++ ' ' :: (deviceNumber 0x801 ++ ' ' :: (deviceNumber 0x802 ++ ' ' :: rest)) := by
  let params := "1 8:3 8:4 4096 4096 7 1 sha256 ab  cd 1 panic_on_corruption ".toList
  have roomy : goodOutcomes.Roomy := ⟨rfl, rfl, rfl, rfl⟩
  have found : goodOutcomes.newDev.stat "/dev/usr".toList = some 0x801 := rfl
  have hashFound : goodOutcomes.newHashDev.stat "/dev/verity".toList = some 0x802 := rfl
  have splices := @updateParams_splices goodOutcomes params _ _ _ _ found hashFound
  have fields : ¬ (params.count ' ' < 9 ∨ ¬ goodOutcomes.Roomy) :=
    not_or.mpr ⟨by decide, not_not_intro roomy⟩
  obtain ⟨params', updated⟩ := Option.ne_none_iff_exists'.mp (mt splices.1.mp fields)
  exact ⟨params', updated, (splices.2 params' updated).1⟩

/-- With too few fields nothing is loaded, but a reload task has been built. -/
theorem fewFields_reload :
    ¬ Transaction goodOutcomes "/dev/usr".toList "/dev/verity".toList (verityDevice "1 8:3 8:4")
      (swapDevices goodOutcomes "usr".toList "/dev/usr".toList "/dev/verity".toList
        ⟨verityDevice "1 8:3 8:4", []⟩).1
      (swapDevices goodOutcomes "usr".toList "/dev/usr".toList "/dev/verity".toList
        ⟨verityDevice "1 8:3 8:4", []⟩).2 := by
  intro transaction
  have read : TableRead goodOutcomes (verityDevice "1 8:3 8:4") "1 8:3 8:4".toList 0 2048 :=
    ⟨rfl, rfl, rfl, rfl, rfl, rfl⟩
  exact (transaction.early _ _ _ read (by decide)).2 (by decide)

example :
    (swapDevices goodOutcomes "usr".toList "/dev/usr".toList "/dev/verity".toList
      ⟨verityDevice "1 8:3 8:4 4096 4096 7 1 sha256 ab cd", []⟩).2.device =
        verityDevice "1 8:1 8:2 4096 4096 7 1 sha256 ab cd" := by decide

end GnomeBuildMeta.Verity
