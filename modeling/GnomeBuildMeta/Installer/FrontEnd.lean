import GnomeBuildMeta.Installer.Daemon
import Mathlib.Logic.Function.Basic

/-!
# The installer windows and the daemon

Any number of applications open windows, and in each window a user goes on
from its first page, selects a disk and clicks.  A disk that is not listed as
empty is formatted through UDisks before the daemon is asked to install; both
are blocking D-Bus calls of the window's process.  The daemon takes the calls in
any order.
-/

namespace GnomeBuildMeta.Installer.FrontEnd

open GnomeBuildMeta.Control

/-- A row of the disk list. -/
structure Row where
  device : String
  block : String
  empty : Bool
  deriving DecidableEq, Repr

/-- What the code behind a window is doing. -/
inductive Activity where
  | idle
  /-- The erase dialog is open. -/
  | asking (row : Row)
  /-- About to call `Format` on the block device of the row. -/
  | erasing (row : Row)
  /-- About to call `Install` on the device of the row. -/
  | calling (row : Row)
  /-- The `Install` call with this serial number has no reply yet. -/
  | waiting (row : Row) (serial : Nat)
  deriving DecidableEq, Repr

/-- A page of a window's `NavigationView`. -/
inductive Page where
  /-- `InstallOrLive`, with the button 'Install now' -/
  | welcome
  /-- `DiskSelector` -/
  | disks
  /-- `StatusDisplay`, which has no way back. -/
  | status
  deriving DecidableEq, Repr

/--
`button` says whether the install button is in the header.  The first of the
pages is the one that is shown.
-/
structure Window where
  opened : Bool
  button : Bool
  pages : List Page
  activity : Activity
  deriving DecidableEq, Repr

/-- An `Install` call on its way to the daemon. -/
structure Request (W : Type) where
  serial : Nat
  window : W
  row : Row
  call : Call

/--
The windows `W` of the applications `A`, the daemon, and the calls and replies
between them.  `current` is the window that an application opened last.
-/
structure System (W A : Type) where
  windows : W → Window
  current : A → Option W
  sent : Nat
  requests : List (Request W)
  replies : List (Nat × Except FdoError String)
  daemon : Daemon

inductive Event (W : Type) where
  | opened (w : W)
  /-- 'Install now' is clicked, and the list of disks is shown or it was there already. -/
  | install (w : W) (pushed : Bool)
  | back (w : W)
  | click (w : W) (row : Row)
  | choose (w : W) (erase : Bool)
  | format (w : W) (row : Row) (succeeded : Bool)
  | send (w : W) (row : Row)
  | handle (w : W) (row : Row) (reply : Except FdoError String)
  | deliver (w : W) (reply : Except FdoError String)
  | noReply (w : W)
  | wake
  | finish

section Steps

variable {W A : Type} [DecidableEq W] [DecidableEq A]

def System.start (hasTpm2 hasPcrlock : Bool) : System W A where
  windows := fun _ => ⟨false, false, [], .idle⟩
  current := fun _ => none
  sent := 0
  requests := []
  replies := []
  daemon := .start hasTpm2 hasPcrlock

/-- The window goes on with another activity. -/
def System.doing (s : System W A) (w : W) (activity : Activity) : System W A :=
  { s with windows := Function.update s.windows w { s.windows w with activity := activity } }

/-- `doInstall`: an empty disk is installed to at once, for any other the user is asked. -/
def afterClick (row : Row) : Activity := if row.empty then .calling row else .asking row

/-- `onResponse` -/
def afterChoice (row : Row) (erase : Bool) : Activity := if erase then .erasing row else .idle

/-- `Format` returns, or it raises and nothing more is done. -/
def afterFormat (row : Row) (succeeded : Bool) : Activity :=
  if succeeded then .calling row else .idle

/-- `self.win` and `self._install_button` are those of the window that the application opened last. -/
def System.changeLatest (app : W → A) (s : System W A) (w : W) (change : Window → Window) :
    System W A :=
  match s.current (app w) with
  | none => s
  | some latest => { s with windows := Function.update s.windows latest (change (s.windows latest)) }

/--
`on_install` packs the latest install button into the header of the latest
window, also when it is the welcome page of an older window that was clicked.
A button that is packed already stays where it is; `pushed` says whether the
list of disks could be pushed, or was in a window already.
-/
def System.onInstall (app : W → A) (s : System W A) (w : W) (pushed : Bool) : System W A :=
  s.changeLatest app w fun window =>
    { window with
      button := true
      pages := if pushed then .disks :: window.pages else window.pages }

/--
`display_recovery` takes the latest install button from its header and shows
the status in the latest window.  It is not reached when `Install` raises.
-/
def System.displayRecovery (app : W → A) (s : System W A) (w : W) : System W A :=
  s.changeLatest app w fun window =>
    { window with button := false, pages := .status :: window.pages }

/-- The page that is shown is left for the one below it. -/
def System.goBack (s : System W A) (w : W) : System W A :=
  let window := s.windows w
  { s with windows := Function.update s.windows w { window with pages := window.pages.tail } }

inductive System.Step (app : W → A) : System W A → Event W → System W A → Prop where
  | opened (s : System W A) (w : W) : (s.windows w).opened = false →
      Step app s (.opened w)
        { s with
          windows := Function.update s.windows w ⟨true, false, [.welcome], .idle⟩
          current := Function.update s.current (app w) (some w) }
  | install (s : System W A) (w : W) (pushed : Bool) :
      (s.windows w).pages.head? = some .welcome → (s.windows w).activity = .idle →
      Step app s (.install w pushed) (s.onInstall app w pushed)
  | back (s : System W A) (w : W) (page below : Page) (rest : List Page) :
      (s.windows w).pages = page :: below :: rest → page ≠ .status →
      (s.windows w).activity = .idle → Step app s (.back w) (s.goBack w)
  | click (s : System W A) (w : W) (row : Row) :
      (s.windows w).opened = true → (s.windows w).button = true →
      (s.windows w).activity = .idle →
      Step app s (.click w row) (s.doing w (afterClick row))
  | choose (s : System W A) (w : W) (row : Row) (erase : Bool) :
      (s.windows w).activity = .asking row →
      Step app s (.choose w erase) (s.doing w (afterChoice row erase))
  | format (s : System W A) (w : W) (row : Row) (succeeded : Bool) :
      (s.windows w).activity = .erasing row →
      Step app s (.format w row succeeded) (s.doing w (afterFormat row succeeded))
  | send (s : System W A) (w : W) (row : Row) (c : Call) (oemInstall : Bool) :
      (s.windows w).activity = .calling row → c.body = .ok (row.device, oemInstall) →
      Step app s (.send w row)
        { s with
          windows := (s.doing w (.waiting row s.sent)).windows
          sent := s.sent + 1
          requests := ⟨s.sent, w, row, c⟩ :: s.requests }
  | handle (s : System W A) (request : Request W) : request ∈ s.requests →
      Step app s (.handle request.window request.row (s.daemon.install request.call).1)
        { s with
          requests := s.requests.filter fun r => r.serial != request.serial
          replies := (request.serial, (s.daemon.install request.call).1) :: s.replies
          daemon := (s.daemon.install request.call).2 }
  | accepted (s : System W A) (w : W) (row : Row) (serial : Nat) (passphrase : String) :
      (s.windows w).activity = .waiting row serial → (serial, .ok passphrase) ∈ s.replies →
      Step app s (.deliver w (.ok passphrase)) ((s.doing w .idle).displayRecovery app w)
  | refused (s : System W A) (w : W) (row : Row) (serial : Nat) (error : FdoError) :
      (s.windows w).activity = .waiting row serial → (serial, .error error) ∈ s.replies →
      Step app s (.deliver w (.error error)) (s.doing w .idle)
  /-- The call times out; the daemon may still take it later. -/
  | noReply (s : System W A) (w : W) (row : Row) (serial : Nat) :
      (s.windows w).activity = .waiting row serial → Step app s (.noReply w) (s.doing w .idle)
  | wake (s : System W A) (daemon : Daemon) : s.daemon.receive = some daemon →
      Step app s .wake { s with daemon := daemon }
  /-- The installation ends and the daemon exits; the next call activates another one. -/
  | finish (s : System W A) (hasTpm2 hasPcrlock : Bool) : s.daemon.started.isSome = true →
      Step app s .finish { s with daemon := .start hasTpm2 hasPcrlock }

end Steps

/-! ## What is observed -/

/-- No disk is formatted while an installation on it, once accepted, is not finished. -/
def NoFormatWhileInstalling {W : Type} (trace : List (Event W)) : Prop :=
  ∀ pre w row passphrase mid w' row' succeeded post,
    trace = pre ++ .handle w row (.ok passphrase) :: (mid ++ .format w' row' succeeded :: post) →
    .finish ∉ mid → row'.device ≠ row.device

/-- A window whose call is refused has not formatted the disk before. -/
def RefusedUnformatted {W : Type} (trace : List (Event W)) : Prop :=
  ∀ pre w row error post, trace = pre ++ .handle w row (.error error) :: post →
    ∀ row', .format w row' true ∈ pre → row'.device ≠ row.device

end GnomeBuildMeta.Installer.FrontEnd
