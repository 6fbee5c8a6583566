import GnomeBuildMeta.Installer.Daemon

/-!
# One installation for each daemon

A daemon is pending until a call succeeds, then it has sent the recipe of that
call, and then it has started the installation.  `Phase` says which, together
with what the calls so far were answered.
-/

namespace GnomeBuildMeta.Installer

open GnomeBuildMeta.Control

/-- The call is well formed and polkit allows it. -/
def Call.Authorised (c : Call) : Prop := c.body.isOk = true ∧ authorize c = .ok ()

/-- The event is a call that was answered with a passphrase. -/
def Event.Succeeds : Event → Prop
  | .call _ (.ok _) => True
  | _ => False

/-- The event is a call that succeeded and whose recipe is the given one. -/
def Event.Triggers (recipe : InstallationRecipe) : Event → Prop
  | .call c (.ok passphrase) =>
      c.body = .ok (recipe.device, recipe.oemInstall) ∧ passphrase = recipe.recoveryPassphrase
  | _ => False

theorem Event.Triggers.succeeds {recipe : InstallationRecipe} {e : Event}
    (triggers : e.Triggers recipe) : e.Succeeds := by
  cases e with
  | receive => exact triggers
  | call c reply =>
      cases reply with
      | error e => exact triggers
      | ok passphrase => exact True.intro

/-! ## One call -/

/-- A denied or malformed call fails and changes nothing. -/
theorem Daemon.install_refused (d : Daemon) {c : Call} (refused : ¬ c.Authorised) :
    ∃ e, d.install c = (.error e, d) := by
  unfold Daemon.install
  cases body : c.body with
  | error e => exact ⟨.invalidArgs e, rfl⟩
  | ok args =>
      cases auth : authorize c with
      | error e => exact ⟨e, rfl⟩
      | ok allowed => exact absurd ⟨by rw [body]; rfl, auth⟩ refused

/-- Once the sender has been taken every call fails and changes nothing. -/
theorem Daemon.install_taken (d : Daemon) (c : Call) (taken : d.installation = none) :
    ∃ e, d.install c = (.error e, d) := by
  by_cases authorised : c.Authorised
  · obtain ⟨formed, auth⟩ := authorised
    have same : { d with installation := none } = d := by rw [← taken]
    cases body : c.body with
    | error e => rw [body] at formed; cases formed
    | ok args =>
        refine ⟨.failed "Installation already started", ?_⟩
        simp only [Daemon.install, body, auth, taken, same]
  · exact d.install_refused authorised

/-- A call that succeeds has taken the sender. -/
theorem Daemon.install_isOk (d : Daemon) {c : Call} (succeeded : (d.install c).1.isOk = true) :
    (d.install c).2.installation = none := by
  by_cases authorised : c.Authorised
  · obtain ⟨formed, auth⟩ := authorised
    cases body : c.body with
    | error e => rw [body] at formed; cases formed
    | ok args =>
        simp only [Daemon.install, body, auth]
        cases d.installation with
        | none => rfl
        | some ev =>
            simp only
            split <;> rfl
  · obtain ⟨e, failed⟩ := d.install_refused authorised
    rw [failed] at succeeded
    cases succeeded

/-- A call that succeeds is allowed, and its answer is the passphrase that was made for it. -/
theorem Daemon.install_ok {d : Daemon} {c : Call} {passphrase : String}
    (succeeded : (d.install c).1 = .ok passphrase) :
    c.Authorised ∧ ∀ device oemInstall, c.body = .ok (device, oemInstall) →
      passphrase = d.passphrase c oemInstall := by
  by_cases authorised : c.Authorised
  · refine ⟨authorised, fun device oemInstall body => ?_⟩
    simp only [Daemon.install, body, authorised.2] at succeeded
    split at succeeded
    · cases succeeded
    · split at succeeded
      · cases succeeded
      · exact (Except.ok.inj succeeded).symm
  · obtain ⟨e, failed⟩ := d.install_refused authorised
    rw [failed] at succeeded
    cases succeeded

/-- The first authorised call succeeds and sends its own recipe. -/
theorem Daemon.install_pending (d : Daemon) {c : Call} (pending : d.installation = some .tx)
    (waiting : d.channel = .waiting) (authorised : c.Authorised) :
    ∃ recipe : InstallationRecipe, c.body = .ok (recipe.device, recipe.oemInstall) ∧
      d.install c = (.ok recipe.recoveryPassphrase,
        { d with installation := none, channel := .sent recipe }) := by
  obtain ⟨formed, auth⟩ := authorised
  cases body : c.body with
  | error e => rw [body] at formed; cases formed
  | ok args =>
      refine ⟨⟨args.1, d.passphrase c args.2, args.2⟩, rfl, ?_⟩
      simp only [Daemon.install, body, auth, pending, waiting, Sender.send]

/-! ## Runs -/

/-- The trace has exactly one call that succeeds, and `recipe` is its recipe. -/
def OneSuccess (trace : List Event) (recipe : InstallationRecipe) : Prop :=
  ∃ before e after, trace = before ++ e :: after ∧ e.Triggers recipe ∧
    (∀ x ∈ before, ¬ x.Succeeds) ∧ ∀ x ∈ after, ¬ x.Succeeds

theorem OneSuccess.snoc {trace : List Event} {recipe : InstallationRecipe} {e : Event}
    (one : OneSuccess trace recipe) (fails : ¬ e.Succeeds) : OneSuccess (trace ++ [e]) recipe := by
  obtain ⟨before, hit, after, rfl, triggers, none', rest⟩ := one
  refine ⟨before, hit, after ++ [e], by simp, triggers, none', ?_⟩
  intro x member
  rcases List.mem_append.mp member with inside | last
  · exact rest x inside
  · rw [List.mem_singleton.mp last]
    exact fails

/-- The three phases of a daemon, each with what its calls were answered. -/
inductive Phase (hasTpm2 hasPcrlock : Bool) (trace : List Event) : Daemon → Prop where
  | pending (silent : ∀ e ∈ trace, ¬ e.Succeeds) :
      Phase hasTpm2 hasPcrlock trace (.start hasTpm2 hasPcrlock)
  | sent (recipe : InstallationRecipe) (one : OneSuccess trace recipe) :
      Phase hasTpm2 hasPcrlock trace ⟨hasTpm2, hasPcrlock, none, .sent recipe, none⟩
  | started (recipe : InstallationRecipe) (one : OneSuccess trace recipe) :
      Phase hasTpm2 hasPcrlock trace
        ⟨hasTpm2, hasPcrlock, none, .closed, some ⟨recipe, hasTpm2, hasPcrlock⟩⟩

/-- Each step leads from a phase to a phase. -/
theorem Phase.step {hasTpm2 hasPcrlock : Bool} {trace : List Event} {d d' : Daemon} {e : Event}
    (phase : Phase hasTpm2 hasPcrlock trace d) (step : d.Step e d') :
    Phase hasTpm2 hasPcrlock (trace ++ [e]) d' := by
  cases step with
  | receive woken =>
      have fails : ¬ Event.receive.Succeeds := id
      cases phase with
      | pending silent => cases woken
      | sent recipe one =>
          cases woken
          exact .started recipe (one.snoc fails)
      | started recipe one => cases woken
  | call c =>
      have kept : ∀ (d : Daemon) (e : FdoError), d.install c = (.error e, d) →
          ¬ (Event.call c (d.install c).1).Succeeds ∧ (d.install c).2 = d := by
        intro d e failed
        rw [failed]
        exact ⟨id, rfl⟩
      cases phase with
      | sent recipe one =>
          obtain ⟨e, failed⟩ := Daemon.install_taken ⟨_, _, none, .sent recipe, none⟩ c rfl
          obtain ⟨fails, same⟩ := kept _ e failed
          rw [same]
          exact .sent recipe (one.snoc fails)
      | started recipe one =>
          obtain ⟨e, failed⟩ := Daemon.install_taken ⟨_, _, none, .closed, some _⟩ c rfl
          obtain ⟨fails, same⟩ := kept _ e failed
          rw [same]
          exact .started recipe (one.snoc fails)
      | pending silent =>
          by_cases authorised : c.Authorised
          · obtain ⟨recipe, body, done⟩ :=
              (Daemon.start hasTpm2 hasPcrlock).install_pending rfl rfl authorised
            rw [done]
            refine .sent recipe ⟨trace, _, [], rfl, ⟨body, rfl⟩, silent, ?_⟩
            intro x member
            cases member
          · obtain ⟨e, failed⟩ := (Daemon.start hasTpm2 hasPcrlock).install_refused authorised
            obtain ⟨fails, same⟩ := kept _ e failed
            rw [same]
            refine .pending fun x member => ?_
            rcases List.mem_append.mp member with inside | last
            · exact silent x inside
            · rw [List.mem_singleton.mp last]
              exact fails

theorem phase_of_run {hasTpm2 hasPcrlock : Bool} {trace : List Event} {d : Daemon}
    (run : Run Daemon.Step (.start hasTpm2 hasPcrlock) trace d) :
    Phase hasTpm2 hasPcrlock trace d :=
  run.invariant (I := Phase hasTpm2 hasPcrlock) (.pending fun _ member => nomatch member)
    fun _ _ _ _ phase step => phase.step step

/-- What the calls of a daemon and its installation have to do with each other. -/
structure Single (hasTpm2 hasPcrlock : Bool) (trace : List Event) (d : Daemon) : Prop where
  /-- Two calls never both succeed, so every call after a successful one fails. -/
  once : trace.Pairwise fun e e' => ¬ (e.Succeeds ∧ e'.Succeeds)
  /-- What `main` has passed to `do_install` is the recipe of the successful call. -/
  recipe : ∀ i, d.started = some i →
    (∃ e ∈ trace, e.Triggers i.recipe) ∧ i.hasTpm2 = hasTpm2 ∧ i.hasPcrlock = hasPcrlock
  /-- The recipe of a successful call is waiting for `main`, or `main` has it. -/
  delivered : ∀ e ∈ trace, e.Succeeds → ∃ recipe, e.Triggers recipe ∧
    (d.channel = .sent recipe ∨ d.started = some ⟨recipe, hasTpm2, hasPcrlock⟩)
  /-- A denied or malformed call fails and leaves the daemon as it is. -/
  refused : ∀ c : Call, ¬ c.Authorised → ∃ e, d.install c = (.error e, d)
  /-- As long as no call has succeeded an authorised call succeeds. -/
  retry : (∀ e ∈ trace, ¬ e.Succeeds) → ∀ c : Call, c.Authorised →
    (d.install c).1.isOk = true

theorem OneSuccess.pairwise {trace : List Event} {recipe : InstallationRecipe}
    (one : OneSuccess trace recipe) :
    trace.Pairwise fun e e' => ¬ (e.Succeeds ∧ e'.Succeeds) := by
  obtain ⟨before, hit, after, rfl, triggers, none', rest⟩ := one
  refine List.pairwise_append.mpr ⟨?_, ?_, ?_⟩
  · exact List.pairwise_of_forall_mem_list fun e inside _ _ both => none' e inside both.1
  · refine List.pairwise_cons.mpr ⟨fun e inside both => rest e inside both.2, ?_⟩
    exact List.pairwise_of_forall_mem_list fun e inside _ _ both => rest e inside both.1
  · exact fun e inside _ _ both => none' e inside both.1

theorem OneSuccess.mem {trace : List Event} {recipe : InstallationRecipe}
    (one : OneSuccess trace recipe) :
    (∃ e ∈ trace, e.Triggers recipe) ∧ ∀ e ∈ trace, e.Succeeds → e.Triggers recipe := by
  obtain ⟨before, hit, after, rfl, triggers, none', rest⟩ := one
  refine ⟨⟨hit, by simp, triggers⟩, fun e member succeeds => ?_⟩
  rcases List.mem_append.mp member with early | late
  · exact absurd succeeds (none' e early)
  · rcases List.mem_cons.mp late with rfl | later
    · exact triggers
    · exact absurd succeeds (rest e later)

/-- Every run of a daemon, whatever calls reach it and whenever `main` wakes up. -/
theorem run_single {hasTpm2 hasPcrlock : Bool} {trace : List Event} {d : Daemon}
    (run : Run Daemon.Step (.start hasTpm2 hasPcrlock) trace d) :
    Single hasTpm2 hasPcrlock trace d := by
  have refused := fun (c : Call) (denied : ¬ c.Authorised) => d.install_refused denied
  cases phase_of_run run with
  | pending silent =>
      constructor
      · exact List.pairwise_of_forall_mem_list fun e inside _ _ both => silent e inside both.1
      · intro i started
        cases started
      · exact fun e member succeeds => absurd succeeds (silent e member)
      · exact refused
      · intro _ c authorised
        obtain ⟨recipe, _, done⟩ :=
          (Daemon.start hasTpm2 hasPcrlock).install_pending rfl rfl authorised
        rw [done]
        rfl
  | sent recipe one =>
      constructor
      · exact one.pairwise
      · intro i started
        cases started
      · exact fun e member succeeds => ⟨recipe, one.mem.2 e member succeeds, Or.inl rfl⟩
      · exact refused
      · intro silent
        obtain ⟨e, member, triggers⟩ := one.mem.1
        exact absurd triggers.succeeds (silent e member)
  | started recipe one =>
      constructor
      · exact one.pairwise
      · intro i started
        cases started
        exact ⟨one.mem.1, rfl, rfl⟩
      · exact fun e member succeeds => ⟨recipe, one.mem.2 e member succeeds, Or.inr rfl⟩
      · exact refused
      · intro silent
        obtain ⟨e, member, triggers⟩ := one.mem.1
        exact absurd triggers.succeeds (silent e member)

/-- A well-formed call from one sender, with what polkit says about it. -/
def sampleCall (allowed : Bool) : Call where
  body := .ok ("sda", false)
  sender := some ":1.7"
  ownedValue := some
  polkitAuthorityProxy := .ok ()
  checkAuthorization := fun _ _ => .ok allowed
  recoveryRaw := Vector.replicate 32 0x5a

/-- After a denied call an authorised one starts the installation. -/
theorem sample_run_single : ∃ trace d, trace.length = 3 ∧ d.started.isSome = true ∧
    Single true true trace d :=
  ⟨_, _, rfl, rfl, run_single
    (((Run.nil.snoc (.call _ (sampleCall false))).snoc (.call _ (sampleCall true))).snoc
      (.receive rfl))⟩

end GnomeBuildMeta.Installer
