import GnomeBuildMeta.Installer.DaemonRun
import GnomeBuildMeta.Installer.FrontEnd

/-!
# When windows format disks

Formatting comes before the `Install` call, because the daemon only installs to
an empty disk.  So a refused call may have cost the disk its content, and a
window that does not know of an installation may format its disk.  What a
window does is still bound to what its user confirmed.
-/

namespace GnomeBuildMeta.Installer.FrontEnd

open GnomeBuildMeta.Control

variable {W A : Type} [DecidableEq W] [DecidableEq A]

/-- The window whose user or code takes the step. -/
def Event.window : Event W → Option W
  | .install w _ | .back w | .click w _ | .choose w _ | .format w _ _ | .send w _ | .deliver w _
  | .noReply w => some w
  | .opened _ | .handle _ _ _ | .wake | .finish => none

/-- The steps that a window has taken. -/
def own (w : W) (trace : List (Event W)) : List (Event W) :=
  trace.filter fun e => e.window = some w

/-- The steps that lead a window to the call of `Install`. -/
def attempt (w : W) (row : Row) : List (Event W) :=
  if row.empty then [.click w row] else [.click w row, .choose w true, .format w row true]

/-- The last window that the application of `w` has opened is `w`. -/
def Latest (app : W → A) (w : W) (trace : List (Event W)) : Prop :=
  ∃ pre post, trace = pre ++ .opened w :: post ∧ ∀ w', .opened w' ∈ post → app w' ≠ app w

/--
The window was the latest one of its application when it learnt that its call was
accepted, and 'Install now' was not clicked in another one since.
-/
def Told (app : W → A) (w : W) (trace : List (Event W)) : Prop :=
  ∃ pre passphrase post, trace = pre ++ .deliver w (.ok passphrase) :: post ∧ Latest app w pre ∧
    ∀ w' pushed, .install w' pushed ∈ post → app w' = app w → w' = w

/-- What windows do in every order of steps. -/
structure Orderly (app : W → A) (trace : List (Event W)) : Prop where
  /-- A window formats a disk that it lists as not empty, once, when its user has confirmed that. -/
  format : ∀ pre w row succeeded post, trace = pre ++ .format w row succeeded :: post →
    row.empty = false ∧ [.click w row, .choose w true] <:+ own w pre ∧ ¬ Told app w pre
  /-- Before a call that the daemon refuses the disk was formatted exactly if it was not empty. -/
  refused : ∀ pre w row error post, trace = pre ++ .handle w row (.error error) :: post →
    ∃ before after, pre = before ++ .send w row :: after ∧ attempt w row <:+ own w before
  /-- While an installation is not finished the daemon refuses every other call. -/
  busy : ∀ pre w row passphrase mid w' row' reply post,
    trace = pre ++ .handle w row (.ok passphrase) :: (mid ++ .handle w' row' reply :: post) →
    .finish ∉ mid → reply.isOk = false

/-! ## The steps of one window -/

theorem own_snoc_self {w : W} {trace : List (Event W)} {e : Event W} (self : e.window = some w) :
    own w (trace ++ [e]) = own w trace ++ [e] := by
  simp [own, List.filter_append, self]

theorem own_snoc_other {w : W} {trace : List (Event W)} {e : Event W} (other : e.window ≠ some w) :
    own w (trace ++ [e]) = own w trace := by
  simp [own, List.filter_append, other]

/-- What a window has done last says what it is doing. -/
def Activity.Follows (w : W) (trace : List (Event W)) : Activity → Prop
  | .idle => True
  | .asking row => row.empty = false ∧ [.click w row] <:+ own w trace
  | .erasing row => row.empty = false ∧ [.click w row, .choose w true] <:+ own w trace
  | .calling row => attempt w row <:+ own w trace
  | .waiting _ _ => True

theorem Activity.Follows.other {w : W} {trace : List (Event W)} {activity : Activity}
    (follows : activity.Follows w trace) {e : Event W} (other : e.window ≠ some w) :
    activity.Follows w (trace ++ [e]) := by
  cases activity with
  | idle => exact True.intro
  | waiting row serial => exact True.intro
  | asking row | erasing row | calling row =>
      simp only [Activity.Follows, own_snoc_other other]
      exact follows

theorem suffix_snoc {α : Type} {l l' : List α} (suffix : l <:+ l') (a : α) :
    l ++ [a] <:+ l' ++ [a] := by
  obtain ⟨stem, rfl⟩ := suffix
  exact ⟨stem, by simp⟩

omit [DecidableEq A] in
theorem doing_window {s : System W A} {w w' : W} {activity : Activity} :
    (s.doing w activity).windows w' =
      if w' = w then { s.windows w with activity := activity } else s.windows w' := by
  unfold System.doing
  by_cases same : w' = w
  · subst same
    simp
  · simp [same]

omit [DecidableEq A] in
theorem changeLatest_window {app : W → A} {s : System W A} {w w' : W} {change : Window → Window} :
    (s.changeLatest app w change).windows w' =
      if s.current (app w) = some w' then change (s.windows w') else s.windows w' := by
  unfold System.changeLatest
  cases latest : s.current (app w) with
  | none => simp
  | some window =>
      by_cases same : w' = window
      · subst same
        simp
      · simp [same, eq_comm]

/-- Everything but the windows is the same. -/
structure WindowsOnly (s s' : System W A) : Prop where
  current : s'.current = s.current
  requests : s'.requests = s.requests
  daemon : s'.daemon = s.daemon

omit [DecidableEq A] in
theorem changeLatest_windowsOnly (app : W → A) (s : System W A) (w : W) (change : Window → Window) :
    WindowsOnly s (s.changeLatest app w change) := by
  unfold System.changeLatest
  split <;> exact ⟨rfl, rfl, rfl⟩

omit [DecidableEq A] in
theorem onInstall_windowsOnly (app : W → A) (s : System W A) (w : W) (pushed : Bool) :
    WindowsOnly s (s.onInstall app w pushed) := changeLatest_windowsOnly app s w _

omit [DecidableEq A] in
theorem displayRecovery_windowsOnly (app : W → A) (s : System W A) (w : W) :
    WindowsOnly s (s.displayRecovery app w) := changeLatest_windowsOnly app s w _

omit [DecidableEq A] in
theorem onInstall_window {app : W → A} {s : System W A} {w w' : W} {pushed : Bool} :
    (s.onInstall app w pushed).windows w' =
      if s.current (app w) = some w' then
        { s.windows w' with
          button := true
          pages := if pushed then .disks :: (s.windows w').pages else (s.windows w').pages }
      else s.windows w' := changeLatest_window

omit [DecidableEq A] in
theorem displayRecovery_window {app : W → A} {s : System W A} {w w' : W} :
    (s.displayRecovery app w).windows w' =
      if s.current (app w) = some w' then
        { s.windows w' with button := false, pages := .status :: (s.windows w').pages }
      else s.windows w' := changeLatest_window

omit [DecidableEq A] in
theorem onInstall_activity {app : W → A} {s : System W A} {w w' : W} {pushed : Bool} :
    ((s.onInstall app w pushed).windows w').activity = (s.windows w').activity := by
  rw [onInstall_window]
  split <;> rfl

omit [DecidableEq A] in
theorem displayRecovery_activity {app : W → A} {s : System W A} {w w' : W} :
    ((s.displayRecovery app w).windows w').activity = (s.windows w').activity := by
  rw [displayRecovery_window]
  split <;> rfl

omit [DecidableEq A] in
theorem goBack_window {s : System W A} {w w' : W} :
    (s.goBack w).windows w' =
      if w' = w then { s.windows w with pages := (s.windows w).pages.tail } else s.windows w' := by
  unfold System.goBack
  by_cases same : w' = w
  · subst same
    simp
  · simp [same]

omit [DecidableEq A] in
theorem goBack_activity {s : System W A} {w w' : W} :
    ((s.goBack w).windows w').activity = (s.windows w').activity := by
  rw [goBack_window]
  split
  · rename_i same
    rw [same]
  · rfl

omit [DecidableEq A] in
/-- A step of a window that goes on with an activity keeps every window in line. -/
theorem follows_doing {s : System W A} {trace : List (Event W)}
    (follows : ∀ w, (s.windows w).activity.Follows w trace) {w : W} {e : Event W}
    (self : e.window = some w) {activity : Activity}
    (next : activity.Follows w (trace ++ [e])) (w' : W) :
    ((s.doing w activity).windows w').activity.Follows w' (trace ++ [e]) := by
  rw [doing_window]
  by_cases same : w' = w
  · rw [if_pos same, same]
    exact next
  · rw [if_neg same]
    refine (follows w').other ?_
    rw [self]
    exact fun equal => same (Option.some.inj equal).symm

omit [DecidableEq A] in
/-- A step of a window without an activity that leaves all activities as they are. -/
theorem follows_seen {s s' : System W A} {trace : List (Event W)}
    (follows : ∀ w, (s.windows w).activity.Follows w trace) {w : W} {e : Event W}
    (self : e.window = some w) (idle : (s.windows w).activity = .idle)
    (same : ∀ w', (s'.windows w').activity = (s.windows w').activity) (w' : W) :
    (s'.windows w').activity.Follows w' (trace ++ [e]) := by
  rw [same]
  by_cases own : w' = w
  · rw [own, idle]
    exact True.intro
  · refine (follows w').other ?_
    rw [self]
    exact fun equal => own (Option.some.inj equal).symm

theorem follows_step {app : W → A} {s s' : System W A} {trace : List (Event W)} {e : Event W}
    (follows : ∀ w, (s.windows w).activity.Follows w trace) (step : System.Step app s e s') :
    ∀ w, (s'.windows w).activity.Follows w (trace ++ [e]) := by
  cases step with
  | opened w closed =>
      intro w'
      by_cases same : w' = w
      · subst same
        simp [Activity.Follows]
      · simpa [same] using (follows w').other (e := .opened w) (by simp [Event.window])
  | install w pushed shown idle =>
      exact follows_seen follows rfl idle fun _ => onInstall_activity
  | back w page below rest stack leave idle =>
      exact follows_seen follows rfl idle fun _ => goBack_activity
  | click w row opened button idle =>
      refine follows_doing follows rfl ?_
      have clicked : [.click w row] <:+ own w (trace ++ [.click w row]) := by
        rw [own_snoc_self rfl]
        exact List.suffix_append _ _
      unfold afterClick
      split
      · rename_i empty
        simpa [Activity.Follows, attempt, empty] using clicked
      · rename_i full
        exact ⟨by simpa using full, clicked⟩
  | choose w row erase asking =>
      refine follows_doing follows rfl ?_
      have asked := follows w
      rw [asking] at asked
      cases erase with
      | false => exact True.intro
      | true =>
          refine ⟨asked.1, ?_⟩
          rw [own_snoc_self rfl]
          exact suffix_snoc asked.2 _
  | format w row succeeded erasing =>
      refine follows_doing follows rfl ?_
      have chosen := follows w
      rw [erasing] at chosen
      cases succeeded with
      | false => exact True.intro
      | true =>
          change attempt w row <:+ _
          rw [own_snoc_self rfl, attempt, chosen.1]
          exact suffix_snoc chosen.2 _
  | send w row c oemInstall calling body =>
      have next : Activity.Follows w (trace ++ [.send w row]) (.waiting row s.sent) := True.intro
      exact follows_doing follows rfl next
  | handle request pending => exact fun w => (follows w).other (by simp [Event.window])
  | accepted w row serial passphrase waiting reply =>
      have next : Activity.Follows w (trace ++ [.deliver w (.ok passphrase)]) .idle := True.intro
      intro w'
      rw [displayRecovery_activity]
      exact follows_doing follows rfl next w'
  | refused w row serial error waiting reply =>
      have next : Activity.Follows w (trace ++ [.deliver w (.error error)]) .idle := True.intro
      exact follows_doing follows rfl next
  | noReply w row serial waiting =>
      have next : Activity.Follows w (trace ++ [.noReply w]) .idle := True.intro
      exact follows_doing follows rfl next
  | wake daemon woken => exact fun w => (follows w).other (by simp [Event.window])
  | finish hasTpm2 hasPcrlock started => exact fun w => (follows w).other (by simp [Event.window])

/-! ## The calls on their way -/

/-- Every call on its way was sent at the end of an attempt. -/
def Sent (trace : List (Event W)) (w : W) (row : Row) : Prop :=
  ∃ before after, trace = before ++ .send w row :: after ∧ attempt w row <:+ own w before

theorem Sent.snoc {trace : List (Event W)} {w : W} {row : Row} (sent : Sent trace w row)
    (e : Event W) : Sent (trace ++ [e]) w row := by
  obtain ⟨before, after, rfl, attempted⟩ := sent
  exact ⟨before, after ++ [e], by simp, attempted⟩

theorem sent_step {app : W → A} {s s' : System W A} {trace : List (Event W)} {e : Event W}
    (follows : ∀ w, (s.windows w).activity.Follows w trace)
    (sent : ∀ r ∈ s.requests, Sent trace r.window r.row) (step : System.Step app s e s') :
    ∀ r ∈ s'.requests, Sent (trace ++ [e]) r.window r.row := by
  have kept : ∀ r ∈ s.requests, Sent (trace ++ [e]) r.window r.row :=
    fun r member => (sent r member).snoc e
  cases step with
  | send w row c oemInstall calling body =>
      intro r member
      rcases List.mem_cons.mp member with rfl | earlier
      · have attempted := follows w
        rw [calling] at attempted
        exact ⟨trace, [], rfl, attempted⟩
      · exact kept r earlier
  | handle request pending => exact fun r member => kept r (List.mem_of_mem_filter member)
  | install w pushed shown idle =>
      rw [(onInstall_windowsOnly ..).requests]
      exact kept
  | accepted w row serial passphrase waiting reply =>
      rw [(displayRecovery_windowsOnly ..).requests]
      exact kept
  | opened | back | click | choose | format | refused | noReply | wake | finish => exact kept

/-! ## Windows that were told -/

omit [DecidableEq W] [DecidableEq A] in
theorem Latest.of_snoc {app : W → A} {w : W} {trace : List (Event W)} {e : Event W}
    (latest : Latest app w (trace ++ [e])) : e = .opened w ∨
      Latest app w trace ∧ ∀ w', e = .opened w' → app w' ≠ app w := by
  obtain ⟨pre, post, split, others⟩ := latest
  rcases snoc_eq_append_cons split with ⟨_, _, same⟩ | ⟨post', rfl, rfl⟩
  · exact Or.inl same.symm
  · refine Or.inr ⟨⟨pre, post', rfl, fun w' member => others w' (List.mem_append_left _ member)⟩, ?_⟩
    rintro w' rfl
    exact others w' (List.mem_append_right _ List.mem_cons_self)

/-- The application's current window is the one it opened last. -/
theorem current_step {app : W → A} {s s' : System W A} {trace : List (Event W)} {e : Event W}
    (current : ∀ w, Latest app w trace → s.current (app w) = some w)
    (step : System.Step app s e s') :
    ∀ w, Latest app w (trace ++ [e]) → s'.current (app w) = some w := by
  intro w latest
  rcases latest.of_snoc with rfl | ⟨before, others⟩
  · cases step with
    | opened _ closed => simp
  · have kept := current w before
    cases step with
    | opened w' closed =>
        have apart : app w ≠ app w' := fun same => others w' rfl same.symm
        simpa [apart] using kept
    | install w' pushed shown idle =>
        rw [(onInstall_windowsOnly ..).current]
        exact kept
    | accepted w' row serial passphrase waiting reply =>
        rw [(displayRecovery_windowsOnly ..).current]
        exact kept
    | back | click | choose | format | send | handle | refused | noReply | wake | finish =>
        exact kept

/-- The current window of an application is one of its own. -/
theorem owner_step {app : W → A} {s s' : System W A} {e : Event W}
    (owner : ∀ a w, s.current a = some w → app w = a) (step : System.Step app s e s') :
    ∀ a w, s'.current a = some w → app w = a := by
  cases step with
  | opened w' closed =>
      intro a w latest
      by_cases same : a = app w'
      · subst same
        have here : w' = w := by simpa using latest
        rw [here]
      · exact owner a w (by simpa [same] using latest)
  | install w' pushed shown idle =>
      rw [(onInstall_windowsOnly ..).current]
      exact owner
  | accepted w' row serial passphrase waiting reply =>
      rw [(displayRecovery_windowsOnly ..).current]
      exact owner
  | back | click | choose | format | send | handle | refused | noReply | wake | finish =>
      exact owner

/-! ## The pages of a window -/

/-- Only the lowest page can be the welcome page. -/
def Stacked (pages : List Page) : Prop := .welcome ∉ pages.dropLast

theorem Stacked.cons {pages : List Page} (stacked : Stacked pages) {page : Page}
    (other : page ≠ .welcome) : Stacked (page :: pages) := by
  cases pages with
  | nil => simp [Stacked]
  | cons first rest =>
      intro member
      rcases List.mem_cons.mp member with same | deeper
      · exact other same.symm
      · exact stacked deeper

theorem Stacked.tail {pages : List Page} (stacked : Stacked pages) : Stacked pages.tail := by
  cases pages with
  | nil => exact stacked
  | cons first rest =>
      cases rest with
      | nil => simp [Stacked]
      | cons second rest => exact fun member => stacked (List.mem_cons_of_mem _ member)

/-- While the welcome page is shown there is no status below it. -/
theorem Stacked.status_not_mem {pages : List Page} (stacked : Stacked pages)
    (shown : pages.head? = some .welcome) : .status ∉ pages := by
  cases pages with
  | nil => simp
  | cons first rest =>
      have welcome : first = .welcome := by simpa using shown
      cases rest with
      | nil => simp [welcome]
      | cons second rest => exact absurd (by simp [welcome]) stacked

omit [DecidableEq A] in
theorem stacked_changeLatest {app : W → A} {s : System W A}
    (stacked : ∀ w, Stacked (s.windows w).pages) {w : W} {change : Window → Window}
    (changed : ∀ window, Stacked window.pages → Stacked (change window).pages) (w' : W) :
    Stacked ((s.changeLatest app w change).windows w').pages := by
  rw [changeLatest_window]
  split
  · exact changed _ (stacked w')
  · exact stacked w'

omit [DecidableEq A] in
theorem stacked_doing {s : System W A} (stacked : ∀ w, Stacked (s.windows w).pages) (w : W)
    (activity : Activity) (w' : W) : Stacked ((s.doing w activity).windows w').pages := by
  rw [doing_window]
  split
  · exact stacked w
  · exact stacked w'

/-- The pages of all windows stay stacked. -/
theorem stacked_step {app : W → A} {s s' : System W A} {e : Event W}
    (stacked : ∀ w, Stacked (s.windows w).pages) (step : System.Step app s e s') :
    ∀ w, Stacked (s'.windows w).pages := by
  cases step with
  | opened w' closed =>
      intro w
      by_cases same : w = w'
      · subst same
        simp [Stacked]
      · simpa [same] using stacked w
  | install w' pushed shown idle =>
      refine stacked_changeLatest stacked fun window below => ?_
      cases pushed with
      | false => exact below
      | true => exact below.cons (by simp)
  | back w' page below rest stack leave idle =>
      intro w
      rw [goBack_window]
      split
      · exact (stacked w').tail
      · exact stacked w
  | accepted w' row serial passphrase waiting reply =>
      exact stacked_changeLatest (stacked_doing stacked w' .idle) fun window below =>
        below.cons (by simp)
  | click | choose | format | send | refused | noReply => exact stacked_doing stacked _ _
  | handle | wake | finish => exact stacked

/-- A window that no longer has its button, shows the status and does nothing. -/
structure Window.Retired (window : Window) : Prop where
  opened : window.opened = true
  noButton : window.button = false
  idle : window.activity = .idle
  status : .status ∈ window.pages

omit [DecidableEq W] [DecidableEq A] in
theorem Told.of_snoc {app : W → A} {w : W} {trace : List (Event W)} {e : Event W}
    (told : Told app w (trace ++ [e])) :
    (Told app w trace ∧ ∀ w' pushed, e = .install w' pushed → app w' = app w → w' = w) ∨
      (∃ passphrase, e = .deliver w (.ok passphrase)) ∧ Latest app w trace := by
  obtain ⟨pre, passphrase, post, split, latest, others⟩ := told
  rcases snoc_eq_append_cons split with ⟨_, rfl, same⟩ | ⟨post', rfl, rfl⟩
  · exact Or.inr ⟨⟨passphrase, same.symm⟩, latest⟩
  · refine Or.inl ⟨⟨pre, passphrase, post', rfl, latest, fun w' pushed member =>
      others w' pushed (List.mem_append_left _ member)⟩, ?_⟩
    rintro w' pushed rfl
    exact others w' pushed (List.mem_append_right _ List.mem_cons_self)

omit [DecidableEq A] in
theorem opened_doing {s : System W A} {w w' : W} {activity : Activity}
    (opened : (s.windows w).opened = true) : ((s.doing w' activity).windows w).opened = true := by
  rw [doing_window]
  split
  · rename_i same
    exact same ▸ opened
  · exact opened

/-- An opened window stays opened. -/
theorem opened_kept {app : W → A} {s s' : System W A} {e : Event W} {w : W}
    (opened : (s.windows w).opened = true) (step : System.Step app s e s') :
    (s'.windows w).opened = true := by
  cases step with
  | opened w' closed =>
      by_cases same : w = w'
      · simp [same]
      · simpa [same] using opened
  | install w' pushed shown idle =>
      rw [onInstall_window]
      split <;> exact opened
  | back w' page below rest stack leave idle =>
      rw [goBack_window]
      split
      · rename_i same
        exact same ▸ opened
      · exact opened
  | accepted w' row serial passphrase waiting reply =>
      rw [displayRecovery_window]
      split <;> exact opened_doing opened
  | click | choose | format | send | refused | noReply => exact opened_doing opened
  | handle | wake | finish => exact opened

/-- A retired window stays retired unless another one of its application goes on to install. -/
theorem retired_kept {app : W → A} {s s' : System W A} {e : Event W} {w : W}
    (stacked : ∀ w, Stacked (s.windows w).pages)
    (owner : ∀ a w, s.current a = some w → app w = a) (retired : (s.windows w).Retired)
    (others : ∀ w' pushed, e = .install w' pushed → app w' = app w → w' = w)
    (step : System.Step app s e s') : (s'.windows w).Retired := by
  have apart : ∀ w' activity, (s.windows w').button = true ∨ (s.windows w').activity ≠ .idle →
      ((s.doing w' activity).windows w).Retired := by
    intro w' activity acts
    rw [doing_window, if_neg]
    · exact retired
    · rintro rfl
      rcases acts with button | busy
      · rw [retired.noButton] at button
        cases button
      · exact busy retired.idle
  cases step with
  | opened w' closed =>
      by_cases same : w = w'
      · subst same
        rw [retired.opened] at closed
        cases closed
      · have kept : Function.update s.windows w' ⟨true, false, [.welcome], .idle⟩ w = s.windows w :=
          Function.update_of_ne same _ _
        change (Function.update s.windows w' ⟨true, false, [.welcome], .idle⟩ w).Retired
        rw [kept]
        exact retired
  | install w' pushed shown idle =>
      rw [onInstall_window]
      split
      · rename_i latest
        -- The window would show its welcome page above its status.
        have same := others w' pushed rfl (owner _ _ latest).symm
        rw [same] at shown
        exact absurd retired.status ((stacked w).status_not_mem shown)
      · exact retired
  | back w' page below rest stack leave idle =>
      rw [goBack_window]
      split
      · rename_i same
        subst same
        refine ⟨retired.opened, retired.noButton, retired.idle, ?_⟩
        have status := retired.status
        rw [stack] at status ⊢
        exact (List.mem_cons.mp status).resolve_left (Ne.symm leave)
      · exact retired
  | click w' row isOpen button still => exact apart w' _ (Or.inl button)
  | choose w' row erase asking => exact apart w' _ (Or.inr (by rw [asking]; simp))
  | format w' row succeeded erasing => exact apart w' _ (Or.inr (by rw [erasing]; simp))
  | send w' row c oemInstall calling body => exact apart w' _ (Or.inr (by rw [calling]; simp))
  | accepted w' row serial passphrase waiting reply =>
      have still := apart w' .idle (Or.inr (by rw [waiting]; simp))
      rw [displayRecovery_window]
      split
      · exact ⟨still.opened, rfl, still.idle, List.mem_cons_of_mem _ still.status⟩
      · exact still
  | refused w' row serial error waiting reply => exact apart w' _ (Or.inr (by rw [waiting]; simp))
  | noReply w' row serial waiting => exact apart w' _ (Or.inr (by rw [waiting]; simp))
  | handle | wake | finish => exact retired

theorem opened_step {app : W → A} {s s' : System W A} {trace : List (Event W)} {e : Event W}
    (opened : ∀ w, .opened w ∈ trace → (s.windows w).opened = true)
    (step : System.Step app s e s') :
    ∀ w, .opened w ∈ trace ++ [e] → (s'.windows w).opened = true := by
  intro w member
  rcases List.mem_append.mp member with before | now
  · exact opened_kept (opened w before) step
  · rw [← List.mem_singleton.mp now] at step
    cases step with
    | opened _ closed => simp

/-- A window that has been told of its installation is retired. -/
theorem retired_step {app : W → A} {s s' : System W A} {trace : List (Event W)} {e : Event W}
    (stacked : ∀ w, Stacked (s.windows w).pages)
    (owner : ∀ a w, s.current a = some w → app w = a)
    (opened : ∀ w, .opened w ∈ trace → (s.windows w).opened = true)
    (current : ∀ w, Latest app w trace → s.current (app w) = some w)
    (retired : ∀ w, Told app w trace → (s.windows w).Retired) (step : System.Step app s e s') :
    ∀ w, Told app w (trace ++ [e]) → (s'.windows w).Retired := by
  intro w told
  rcases told.of_snoc with ⟨before, others⟩ | ⟨⟨passphrase, rfl⟩, latest⟩
  · exact retired_kept stacked owner (retired w before) others step
  · have isOpen : (s.windows w).opened = true := by
      obtain ⟨pre, post, rfl, _⟩ := latest
      exact opened w (by simp)
    cases step with
    | accepted _ row serial _ waiting reply =>
        have here : (s.doing w .idle).current (app w) = some w := current w latest
        rw [displayRecovery_window, if_pos here, doing_window, if_pos rfl]
        exact ⟨isOpen, rfl, rfl, List.mem_cons_self⟩

/-! ## The daemon between an acceptance and its end -/

/-- An accepted call whose installation is not finished. -/
def Busy (trace : List (Event W)) : Prop :=
  ∃ pre w row passphrase mid, trace = pre ++ .handle w row (.ok passphrase) :: mid ∧ .finish ∉ mid

omit [DecidableEq W] [DecidableEq A] in
theorem Busy.of_snoc {trace : List (Event W)} {e : Event W} (busy : Busy (trace ++ [e])) :
    e ≠ .finish ∧ (Busy trace ∨ ∃ w row passphrase, e = .handle w row (.ok passphrase)) := by
  obtain ⟨pre, w, row, passphrase, mid, split, unfinished⟩ := busy
  rcases snoc_eq_append_cons split with ⟨_, _, same⟩ | ⟨post', rfl, rfl⟩
  · rw [← same]
    exact ⟨by simp, Or.inr ⟨w, row, passphrase, rfl⟩⟩
  · refine ⟨?_, Or.inl ⟨pre, w, row, passphrase, post', rfl, ?_⟩⟩
    · rintro rfl
      exact unfinished (List.mem_append_right _ List.mem_cons_self)
    · exact fun member => unfinished (List.mem_append_left _ member)

/-- While an installation is not finished the daemon has no sender. -/
theorem busy_step {app : W → A} {s s' : System W A} {trace : List (Event W)} {e : Event W}
    (taken : Busy trace → s.daemon.installation = none) (step : System.Step app s e s') :
    Busy (trace ++ [e]) → s'.daemon.installation = none := by
  intro busy
  obtain ⟨unfinished, before | ⟨w, row, passphrase, rfl⟩⟩ := busy.of_snoc
  · have none' := taken before
    cases step with
    | handle request pending =>
        obtain ⟨e, failed⟩ := s.daemon.install_taken request.call none'
        rw [failed]
        exact none'
    | wake daemon woken =>
        unfold Daemon.receive at woken
        split at woken
        · cases woken
          exact none'
        · cases woken
        · cases woken
    | install w pushed shown idle =>
        rw [(onInstall_windowsOnly ..).daemon]
        exact none'
    | accepted w row serial passphrase waiting reply =>
        rw [(displayRecovery_windowsOnly ..).daemon]
        exact none'
    | finish => exact absurd rfl unfinished
    | opened | back | click | choose | format | send | refused | noReply => exact none'
  · generalize event : Event.handle w row (.ok passphrase) = e at step
    cases step with
    | handle request pending =>
        obtain ⟨_, _, reply⟩ := Event.handle.inj event
        exact s.daemon.install_isOk (by rw [← reply]; rfl)
    | opened | install | back | click | choose | format | send | accepted | refused | noReply
    | wake | finish => cases event

/-! ## Every run -/

/-- What holds of the state after a trace, and of the trace itself. -/
structure Kept (app : W → A) (trace : List (Event W)) (s : System W A) : Prop where
  follows : ∀ w, (s.windows w).activity.Follows w trace
  sent : ∀ r ∈ s.requests, Sent trace r.window r.row
  opened : ∀ w, .opened w ∈ trace → (s.windows w).opened = true
  current : ∀ w, Latest app w trace → s.current (app w) = some w
  owner : ∀ a w, s.current a = some w → app w = a
  stacked : ∀ w, Stacked (s.windows w).pages
  retired : ∀ w, Told app w trace → (s.windows w).Retired
  taken : Busy trace → s.daemon.installation = none
  orderly : Orderly app trace

/-- The next step is in order. -/
theorem orderly_step {app : W → A} {s s' : System W A} {trace : List (Event W)} {e : Event W}
    (kept : Kept app trace s) (step : System.Step app s e s') : Orderly app (trace ++ [e]) := by
  constructor
  · intro pre w row succeeded post split
    rcases snoc_eq_append_cons split with ⟨_, rfl, rfl⟩ | ⟨post', _, before⟩
    · cases step with
      | format _ _ _ erasing =>
          have chosen := kept.follows w
          rw [erasing] at chosen
          refine ⟨chosen.1, chosen.2, fun told => ?_⟩
          have idle := (kept.retired w told).idle
          rw [erasing] at idle
          cases idle
    · exact kept.orderly.format pre w row succeeded post' before
  · intro pre w row error post split
    rcases snoc_eq_append_cons split with ⟨_, rfl, same⟩ | ⟨post', _, before⟩
    · generalize e = event at step same
      cases step with
      | handle request pending =>
          obtain ⟨rfl, rfl, _⟩ := Event.handle.inj same
          exact kept.sent request pending
      | opened | install | back | click | choose | format | send | accepted | refused | noReply
      | wake | finish => cases same
    · exact kept.orderly.refused pre w row error post' before
  · intro pre w row passphrase mid w' row' reply post split unfinished
    have joined : pre ++ .handle w row (.ok passphrase) :: (mid ++ .handle w' row' reply :: post) =
        (pre ++ .handle w row (.ok passphrase) :: mid) ++ .handle w' row' reply :: post := by simp
    rw [joined] at split
    rcases snoc_eq_append_cons split with ⟨_, rfl, same⟩ | ⟨post', _, before⟩
    · have none' := kept.taken ⟨pre, w, row, passphrase, mid, rfl, unfinished⟩
      generalize e = event at step same
      cases step with
      | handle request pending =>
          obtain ⟨_, _, rfl⟩ := Event.handle.inj same
          obtain ⟨e, failed⟩ := s.daemon.install_taken request.call none'
          rw [failed]
          rfl
      | opened | install | back | click | choose | format | send | accepted | refused | noReply
      | wake | finish => cases same
    · exact kept.orderly.busy pre w row passphrase mid w' row' reply post' (by rw [before]; simp)
        unfinished

theorem kept_of_run {app : W → A} {hasTpm2 hasPcrlock : Bool} {trace : List (Event W)}
    {s : System W A} (run : Run (System.Step app) (.start hasTpm2 hasPcrlock) trace s) :
    Kept app trace s := by
  refine run.invariant (I := Kept app) ?_ ?_
  · constructor
    · exact fun _ => True.intro
    · exact fun _ member => nomatch member
    · exact fun _ member => nomatch member
    · rintro w ⟨pre, post, empty, _⟩
      exact absurd empty (by simp)
    · exact fun a w none' => nomatch none'
    · exact fun w => List.not_mem_nil
    · rintro w ⟨pre, passphrase, post, empty, _⟩
      exact absurd empty (by simp)
    · rintro ⟨pre, w, row, passphrase, mid, empty, _⟩
      exact absurd empty (by simp)
    · constructor
      · exact fun pre w row succeeded post empty => absurd empty (by simp)
      · exact fun pre w row error post empty => absurd empty (by simp)
      · exact fun pre w row passphrase mid w' row' reply post empty => absurd empty (by simp)
  · intro trace s e s' kept step
    exact {
      follows := follows_step kept.follows step
      sent := sent_step kept.follows kept.sent step
      opened := opened_step kept.opened step
      current := current_step kept.current step
      owner := owner_step kept.owner step
      stacked := stacked_step kept.stacked step
      retired := retired_step kept.stacked kept.owner kept.opened kept.current kept.retired step
      taken := busy_step kept.taken step
      orderly := orderly_step kept step }

/-- Whatever the order of the steps of all windows and the daemon. -/
theorem run_orderly {app : W → A} {hasTpm2 hasPcrlock : Bool} {trace : List (Event W)}
    {s : System W A} (run : Run (System.Step app) (.start hasTpm2 hasPcrlock) trace s) :
    Orderly app trace := (kept_of_run run).orderly

/-! ## Two windows and one disk -/

def fullRow : Row := ⟨"sda", "/org/freedesktop/UDisks2/block_devices/sda", false⟩

/-- What a window does until its `Install` call is handled. -/
def eraseAndCall (w : Bool) (reply : Except FdoError String) : List (Event Bool) :=
  [.install w true, .click w fullRow, .choose w true, .format w fullRow true, .send w fullRow,
    .handle w fullRow reply]

/-- Two windows are opened and the calls of both are handled, one after the other. -/
def twoAttempts : List (Event Bool) :=
  [.opened false, .opened true] ++
    eraseAndCall false (.ok (recoveryPassphrase (sampleCall true).recoveryRaw)) ++
    eraseAndCall true (.error (.failed "Installation already started"))

theorem run_twoAttempts : ∃ s : System Bool Bool,
    Run (System.Step id) (.start true true) twoAttempts s := by
  have body : (sampleCall true).body = .ok (fullRow.device, false) := rfl
  have first := (Run.nil : Run (System.Step id) (.start true true : System Bool Bool) [] _)
    |>.snoc (.opened _ false rfl) |>.snoc (.opened _ true rfl)
    |>.snoc (.install _ false true rfl rfl) |>.snoc (.click _ false fullRow rfl rfl rfl)
    |>.snoc (.choose _ false fullRow true rfl) |>.snoc (.format _ false fullRow true rfl)
    |>.snoc (.send _ false fullRow (sampleCall true) false rfl body)
    |>.snoc (.handle _ ⟨0, false, fullRow, sampleCall true⟩ List.mem_cons_self)
  have second := first
    |>.snoc (.install _ true true rfl rfl) |>.snoc (.click _ true fullRow rfl rfl rfl)
    |>.snoc (.choose _ true fullRow true rfl) |>.snoc (.format _ true fullRow true rfl)
    |>.snoc (.send _ true fullRow (sampleCall true) false rfl body)
    |>.snoc (.handle _ ⟨1, true, fullRow, sampleCall true⟩ List.mem_cons_self)
  exact ⟨_, second⟩

/-- Also these two attempts are in order. -/
theorem twoAttempts_orderly : twoAttempts.length = 14 ∧ Orderly id twoAttempts := by
  obtain ⟨s, run⟩ := run_twoAttempts
  exact ⟨rfl, run_orderly run⟩

/--
Two windows list the same disk with a partition table.  The second one formats
it after the call of the first one was accepted, and is refused then.
-/
theorem format_while_installing : ∃ (trace : List (Event Bool)) (s : System Bool Bool),
    Run (System.Step id) (.start true true) trace s ∧
      ¬ NoFormatWhileInstalling trace ∧ ¬ RefusedUnformatted trace := by
  obtain ⟨s, run⟩ := run_twoAttempts
  refine ⟨twoAttempts, s, run, ?_, ?_⟩
  · intro never
    exact never ([.opened false, .opened true] ++ (eraseAndCall false (.ok "")).take 5) false fullRow
      (recoveryPassphrase (sampleCall true).recoveryRaw)
      [.install true true, .click true fullRow, .choose true true]
      true fullRow true _ rfl (by simp) rfl
  · intro never
    refine never (twoAttempts.take 13) true fullRow _ [] rfl fullRow ?_ rfl
    simp [twoAttempts, eraseAndCall]

end GnomeBuildMeta.Installer.FrontEnd
