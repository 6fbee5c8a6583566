import GnomeBuildMeta.Installer.DaemonRun
import GnomeBuildMeta.Live.LiveMarker

/-!
# Who may install

The polkit rule of the installer asks for the file by which the generator marks
a live system.  There the users of the machine may install; elsewhere an
administrator has to authenticate, and who could do so in a session on the
machine is refused.  polkitd is not part of the repository; it is any system
that does what it documents.
-/

namespace GnomeBuildMeta.Installer

open GnomeBuildMeta.Control GnomeBuildMeta.Live

/-! ## polkit -/

/-- The process behind a call, as the rules see it. -/
structure PolkitSubject where
  uid : Nat
  active : Bool
  isLocal : Bool
  groups : List String

def PolkitSubject.isInGroup (subject : PolkitSubject) (group : String) : Bool := decide (group ∈ subject.groups)

/-- An active session on the machine of a member of `wheel`. -/
def PolkitSubject.privileged (subject : PolkitSubject) : Bool :=
  subject.active && subject.isLocal && subject.isInGroup "wheel"

/-- The rule; `cat` says whether `/usr/bin/cat /run/gnomeos/is-live` succeeds. -/
def installerRule (action : String) (subject : PolkitSubject) (cat : Bool) : Option Bool :=
  if action = "org.gnome.Installer1.InstallAuth" && subject.privileged then some cat else none

/-- What polkitd decides on. -/
structure Question where
  subject : PolkitSubject
  /-- What the rules say on the action. -/
  rule : Option Bool
  /-- How the authentication as an administrator goes, or one that is kept. -/
  authentication : Except String Bool

abbrev Polkit := Question → Except String Bool

/-- The default for the action is `auth_admin_keep` for any subject. -/
structure Polkit.Documented (polkit : Polkit) : Prop where
  root : ∀ {q : Question}, q.subject.uid = 0 → polkit q = .ok true
  ruled : ∀ {q : Question} {result}, q.subject.uid ≠ 0 → q.rule = some result → polkit q = .ok result
  default' : ∀ {q : Question}, q.subject.uid ≠ 0 → q.rule = none → polkit q = q.authentication

/-! ## The system -/

/-- A call with the process that it comes from. -/
structure Request where
  call : Call
  subject : PolkitSubject
  /-- polkit can start `cat`. -/
  spawns : Bool
  authentication : Except String Bool

def hasMarker (files : Files) : Bool :=
  match files.entries isLiveFile with
  | some (.file _) => true
  | _ => false

def Request.question (r : Request) (action : String) (cat : Bool) : Question where
  subject := r.subject
  rule := installerRule action r.subject cat
  authentication := r.authentication

/-- The call as polkit answers it now. -/
def Request.asked (polkit : Polkit) (r : Request) (files : Files) : Call :=
  let cat := r.spawns && hasMarker files
  { r.call with checkAuthorization := fun _ action => polkit (r.question action cat) }

structure Machine where
  live : Live.System
  daemon : Option Daemon

inductive Happening where
  | generator (a : Live.Action)
  /-- D-Bus starts the daemon. -/
  | activate (hasTpm2 hasPcrlock : Bool)
  | call (r : Request) (reply : Except FdoError String)
  | receive
  | exit

def Happening.action : Happening → Option Live.Action
  | .generator a => some a
  | .activate _ _ | .call _ _ | .receive | .exit => none

inductive Machine.Step (polkit : Polkit) (cmdline : Live.Text) (m : Machine) :
    Happening → Machine → Prop where
  | generator {a : Live.Action} {live : Live.System} (step : Live.Step cmdline m.live a live) :
      Step polkit cmdline m (.generator a) ⟨live, m.daemon⟩
  | activate {hasTpm2 hasPcrlock : Bool} (idle : m.daemon = none) :
      Step polkit cmdline m (.activate hasTpm2 hasPcrlock) ⟨m.live, some (.start hasTpm2 hasPcrlock)⟩
  | call {d : Daemon} (serving : m.daemon = some d) (r : Request) :
      Step polkit cmdline m (.call r (d.install (r.asked polkit m.live.files)).1)
        ⟨m.live, some (d.install (r.asked polkit m.live.files)).2⟩
  | receive {d d' : Daemon} (serving : m.daemon = some d) (woken : d.receive = some d') :
      Step polkit cmdline m .receive ⟨m.live, some d'⟩
  | exit : Step polkit cmdline m .exit ⟨m.live, none⟩

def actions (trace : List Happening) : List Live.Action := trace.filterMap Happening.action

/-! ## What polkit asks for -/

/-- The system is live, and its generator has run on the host. -/
def LiveBoot (cmdline : Live.Text) (trace : List Happening) : Prop :=
  ∃ flags, parseCmdline cmdline = some flags ∧ flags.isLive = true ∧ Ran (actions trace) false

theorem authorize_iff {c : Call} : authorize c = .ok () ↔
    c.polkitAuthorityProxy = .ok () ∧ ∃ sender v, c.sender = some sender ∧ c.ownedValue sender = some v ∧
      c.checkAuthorization ⟨"system-bus-name", [("name", v)]⟩ "org.gnome.Installer1.InstallAuth" = .ok true := by
  unfold authorize
  cases c.polkitAuthorityProxy with
  | error e => simp
  | ok proxy =>
      cases c.sender with
      | none => simp
      | some sender =>
          cases owned : c.ownedValue sender with
          | none => simp [owned]
          | some v =>
              cases asked : c.checkAuthorization ⟨"system-bus-name", [("name", v)]⟩
                  "org.gnome.Installer1.InstallAuth" with
              | error e => simp [owned, asked]
              | ok isAuthorized => cases isAuthorized <;> simp [owned, asked]

/-- What has to be the case for polkit to allow a call. -/
def Request.Granted (r : Request) (cat : Bool) : Prop :=
  r.subject.uid = 0 ∨ if r.subject.privileged = true then cat = true else r.authentication = .ok true

theorem granted_iff {polkit : Polkit} (documented : polkit.Documented) {r : Request} {cat : Bool} :
    polkit (r.question "org.gnome.Installer1.InstallAuth" cat) = .ok true ↔ r.Granted cat := by
  unfold Request.Granted
  by_cases root : r.subject.uid = 0
  · rw [documented.root (q := r.question _ cat) root]
    simp [root]
  · cases privileged : r.subject.privileged with
    | false =>
        have rule : (r.question "org.gnome.Installer1.InstallAuth" cat).rule = none := by
          simp [Request.question, installerRule, privileged]
        rw [documented.default' root rule]
        simp [Request.question, root]
    | true =>
        have rule : (r.question "org.gnome.Installer1.InstallAuth" cat).rule = some cat := by
          simp [Request.question, installerRule, privileged]
        rw [documented.ruled root rule]
        simp [root]

/-- The call has arguments of the right types and a sender. -/
structure Request.WellFormed (r : Request) : Prop where
  body : r.call.body.isOk = true
  proxy : r.call.polkitAuthorityProxy = .ok ()
  sender : ∃ sender, r.call.sender = some sender ∧ (r.call.ownedValue sender).isSome = true

theorem authorised_iff {polkit : Polkit} (documented : polkit.Documented) {r : Request} {files : Files} :
    (r.asked polkit files).Authorised ↔ r.WellFormed ∧ r.Granted (r.spawns && hasMarker files) := by
  unfold Call.Authorised
  rw [authorize_iff]
  constructor
  · rintro ⟨body, proxy, sender, v, sent, owned, allowed⟩
    exact ⟨⟨body, proxy, sender, sent, by rw [show r.call.ownedValue sender = some v from owned]; rfl⟩,
      (granted_iff documented).mp allowed⟩
  · rintro ⟨⟨body, proxy, sender, sent, owned⟩, granted⟩
    obtain ⟨v, owned⟩ := Option.isSome_iff_exists.mp owned
    exact ⟨body, proxy, sender, v, sent, owned, (granted_iff documented).mpr granted⟩

section Marker

variable {cmdline : Live.Text} {trace : List Happening} {s : Live.System}

/-- Where the marker is, the system is live. -/
theorem liveBoot_of_hasMarker (sound : s.Sound cmdline (actions trace)) (marker : hasMarker s.files = true) :
    LiveBoot cmdline trace := by
  unfold hasMarker at marker
  split at marker
  · rename_i text found
    obtain ⟨flags, onInitrd, parsed, ran, op, member, leaves⟩ :=
      sound.prescribed isLiveFile _ isOurs_isLiveFile found
    rw [eq_of_target_isLiveFile (handled_subset _ _ member) (target_of_leaves leaves)] at member
    obtain ⟨live, rfl⟩ := mem_handled_isLiveFile.mp member
    exact ⟨flags, parsed, live, ran⟩
  · cases marker

theorem hasMarker_of_finished (sound : s.Sound cmdline (actions trace)) {flags : Flags}
    (parsed : parseCmdline cmdline = some flags) (live : flags.isLive = true)
    (finished : .finish false ∈ actions trace) : hasMarker s.files = true := by
  unfold hasMarker
  rw [sound.marked flags parsed live finished]

end Marker

/-! ## Every boot -/

/-- Each accepted call is one of root, or it has been allowed by the marker or by an authentication. -/
def Allowed (cmdline : Live.Text) (trace : List Happening) : Prop :=
  ∀ pre r passphrase post, trace = pre ++ .call r (.ok passphrase) :: post →
    r.subject.uid = 0 ∨
      if r.subject.privileged = true then LiveBoot cmdline pre else r.authentication = .ok true

/-- Who has been allowed to install, and who would be now. -/
structure Gated (polkit : Polkit) (cmdline : Live.Text) (trace : List Happening) (m : Machine) :
    Prop where
  accepted : Allowed cmdline trace
  /-- Once the generator is through on a live host, privileged subjects need no authentication. -/
  open' : ∀ flags, parseCmdline cmdline = some flags → flags.isLive = true →
    .finish false ∈ actions trace → ∀ r : Request, r.WellFormed → r.subject.privileged = true →
      r.spawns = true → (r.asked polkit m.live.files).Authorised

theorem gated_step {polkit : Polkit} (documented : polkit.Documented) {cmdline : Live.Text}
    {trace : List Happening} {m m' : Machine} {e : Happening}
    (sound : m.live.Sound cmdline (actions trace)) (accepted : Allowed cmdline trace)
    (step : Machine.Step polkit cmdline m e m') :
    m'.live.Sound cmdline (actions (trace ++ [e])) ∧ Allowed cmdline (trace ++ [e]) := by
  have quiet : e.action = none → actions (trace ++ [e]) = actions trace := by
    intro none'
    simp [actions, none']
  constructor
  · cases step with
    | @generator a live step =>
        have longer : actions (trace ++ [.generator a]) = actions trace ++ [a] := by
          simp [actions, Happening.action]
        rw [longer]
        exact sound.step step
    | activate idle => rwa [quiet rfl]
    | call serving r => rwa [quiet rfl]
    | receive serving woken => rwa [quiet rfl]
    | exit => rwa [quiet rfl]
  · intro pre r passphrase post split
    rcases snoc_eq_append_cons split with ⟨_, rfl, last⟩ | ⟨post', _, earlier⟩
    · cases step with
      | generator step => cases last
      | activate idle => cases last
      | receive serving woken => cases last
      | exit => cases last
      | call serving r' =>
          obtain ⟨rfl, reply⟩ := Happening.call.inj last
          obtain ⟨_, root | granted⟩ :=
            (authorised_iff documented).mp (Daemon.install_ok reply.symm).1
          · exact Or.inl root
          refine Or.inr ?_
          split
          · rename_i privileged
            rw [if_pos privileged, Bool.and_eq_true] at granted
            exact liveBoot_of_hasMarker sound granted.2
          · rename_i ordinary
            rwa [if_neg ordinary] at granted
    · exact accepted pre r passphrase post' earlier

/--
In every boot an installation without an authentication is accepted only from
root, or on a live system from an active session on the machine of a member of
`wheel`.
-/
theorem run_gated {polkit : Polkit} (documented : polkit.Documented) {cmdline : Live.Text}
    {m m' : Machine} {trace : List Happening} (booted : m.live.Booted)
    (run : Run (Machine.Step polkit cmdline) m trace m') : Gated polkit cmdline trace m' := by
  obtain ⟨sound, accepted⟩ : m'.live.Sound cmdline (actions trace) ∧ Allowed cmdline trace := by
    refine run.invariant (I := fun trace m => m.live.Sound cmdline (actions trace) ∧ Allowed cmdline trace) ?_ ?_
    · exact ⟨sound_of_run booted .nil, fun pre r passphrase post split => by simp at split⟩
    · exact fun _ _ _ _ before step => gated_step documented before.1 before.2 step
  refine ⟨accepted, fun flags parsed live finished r formed privileged spawns => ?_⟩
  refine (authorised_iff documented).mpr ⟨formed, Or.inr ?_⟩
  rw [if_pos privileged, spawns, hasMarker_of_finished sound parsed live finished]
  rfl

/-! ## A live system -/

/-- polkitd, where no other rule has anything to say on the action. -/
def polkitd : Polkit := fun q =>
  if q.subject.uid = 0 then .ok true
  else
    match q.rule with
    | some result => .ok result
    | none => q.authentication

theorem polkitd_documented : polkitd.Documented where
  root := fun root => if_pos root
  ruled := by
    intro q result user rule
    rw [polkitd, if_neg user, rule]
  default' := by
    intro q user rule
    rw [polkitd, if_neg user, rule]

def sampleRequest : Request where
  call := sampleCall false
  subject := ⟨1000, true, true, ["wheel"]⟩
  spawns := true
  authentication := .ok false

/-- The generator is killed as soon as it has marked the system, and then a call comes. -/
theorem sampleLine_gated : ∃ trace m', trace.length = 7 ∧
    (∃ passphrase, .call sampleRequest (.ok passphrase) ∈ trace) ∧
      Gated polkitd sampleLine trace m' := by
  have marked : Run (Machine.Step polkitd sampleLine) ⟨⟨sampleFiles, none⟩, none⟩ _ _ :=
    ((((Run.nil.snoc (.generator (sampleLine_start _ rfl))).snoc (.generator (.op rfl rfl rfl))).snoc
      (.generator (.op rfl rfl rfl))).snoc (.generator (.op rfl rfl rfl))).snoc (.generator (.op rfl rfl rfl))
  have run := (marked.snoc (@Machine.Step.activate polkitd sampleLine _ true false rfl)).snoc (.call rfl sampleRequest)
  refine ⟨_, _, rfl, ⟨recoveryPassphrase sampleRequest.call.recoveryRaw, ?_⟩,
    run_gated polkitd_documented ⟨fun _ _ => rfl, rfl⟩ run⟩
  exact List.mem_append_right _ List.mem_cons_self

end GnomeBuildMeta.Installer
