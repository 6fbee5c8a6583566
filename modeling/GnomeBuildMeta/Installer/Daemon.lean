import GnomeBuildMeta.Control.Run

/-!
# The installer daemon

One daemon serves `Install` calls one at a time.  The first authorised call
takes the sending half of a one-shot channel; `main` waits at the other half
and starts the installation with what it receives.
-/

namespace GnomeBuildMeta.Installer

open GnomeBuildMeta.Control

/-- `zbus::fdo::Error`, as far as a call of `Install` can end in it. -/
inductive FdoError where
  | failed (message : String)
  | zbus (error : String)
  | invalidArgs (error : String)
  deriving DecidableEq, Repr

structure InstallationRecipe where
  device : String
  recoveryPassphrase : String
  oemInstall : Bool
  deriving DecidableEq, Repr

/-! ## The one-shot channel -/

inductive Oneshot where
  | waiting
  | sent (recipe : InstallationRecipe)
  | closed
  deriving DecidableEq, Repr

/-- The sending half, which is consumed by sending. -/
inductive Sender where
  | tx
  deriving DecidableEq, Repr

/-- Sending fails when the receiver is gone. -/
def Sender.send (_ : Sender) (recipe : InstallationRecipe) : Oneshot → Except InstallationRecipe Oneshot
  | .waiting => .ok (.sent recipe)
  | .sent _ | .closed => .error recipe

/-! ## Authorisation -/

structure Subject where
  subjectKind : String
  subjectDetails : List (String × String)
  deriving DecidableEq, Repr

/--
A message that reaches the object: its header and body, the answers that the
method gets from D-Bus and polkit while it runs, and the random bytes it draws.
-/
structure Call where
  body : Except String (String × Bool)
  sender : Option String
  ownedValue : String → Option String
  polkitAuthorityProxy : Except String Unit
  checkAuthorization : Subject → String → Except String Bool
  recoveryRaw : Vector UInt8 32

/-- The part of `install` before anything is generated or taken. -/
def authorize (c : Call) : Except FdoError Unit :=
  match c.polkitAuthorityProxy with
  | .error e => .error (.zbus e)
  | .ok () =>
      match c.sender with
      | none => .error (.failed "Cannot find sender")
      | some sender =>
          match c.ownedValue sender with
          | none => .error (.failed "Cannot own sender")
          | some v =>
              match c.checkAuthorization ⟨"system-bus-name", [("name", v)]⟩
                  "org.gnome.Installer1.InstallAuth" with
              | .error e => .error (.zbus e)
              | .ok isAuthorized =>
                  if isAuthorized then .ok () else .error (.failed "Not allowed!")

/-! ## The recovery passphrase -/

def modhex : Vector Char 16 :=
  #v['c', 'b', 'd', 'e', 'f', 'g', 'h', 'i', 'j', 'k', 'l', 'n', 'r', 't', 'u', 'v']

theorem nibble_lt (byte : UInt8) : (byte &&& 0xf).toNat < 16 := by
  rw [UInt8.toNat_and]
  exact Nat.lt_of_le_of_lt Nat.and_le_right (by decide)

/-- `MODHEX[(byte & 0xf) as usize]` -/
def modhexDigit (byte : UInt8) : Char := modhex.get ⟨(byte &&& 0xf).toNat, nibble_lt byte⟩

/-- What the loop appends for one byte. -/
def modhexByte (i : Nat) (byte : UInt8) : List Char :=
  [modhexDigit (byte >>> 4), modhexDigit byte] ++
    (if i % 4 = 3 then ['-'] else [])

def recoveryPassphrase (recoveryRaw : Vector UInt8 32) : String :=
  let chars := recoveryRaw.toList.zipIdx.flatMap fun (byte, i) => modhexByte i byte
  String.ofList (if chars.getLast? = some '-' then chars.dropLast else chars)

/-! ## The object and `main` -/

/-- What `main` passes on to `do_install`. -/
structure Installation where
  recipe : InstallationRecipe
  hasTpm2 : Bool
  hasPcrlock : Bool
  deriving DecidableEq, Repr

/--
The daemon: the object that it serves, the channel between the object and
`main`, and the installation that `main` has started.
-/
structure Daemon where
  hasTpm2 : Bool
  hasPcrlock : Bool
  installation : Option Sender
  channel : Oneshot
  started : Option Installation
  deriving DecidableEq, Repr

def Daemon.start (hasTpm2 hasPcrlock : Bool) : Daemon where
  hasTpm2 := hasTpm2
  hasPcrlock := hasPcrlock
  installation := some .tx
  channel := .waiting
  started := none

/-- The passphrase that `install` generates before it takes the sender. -/
def Daemon.passphrase (d : Daemon) (c : Call) (oemInstall : Bool) : String :=
  if oemInstall || !d.hasTpm2 then "" else recoveryPassphrase c.recoveryRaw

/-- `install`, and before it the unmarshalling of the body. -/
def Daemon.install (d : Daemon) (c : Call) : Except FdoError String × Daemon :=
  match c.body with
  | .error e => (.error (.invalidArgs e), d)
  | .ok (device, oemInstall) =>
      match authorize c with
      | .error e => (.error e, d)
      | .ok () =>
          let passphrase := d.passphrase c oemInstall
          let taken := d.installation
          let d := { d with installation := none }
          match taken with
          | none => (.error (.failed "Installation already started"), d)
          | some ev =>
              match ev.send ⟨device, passphrase, oemInstall⟩ d.channel with
              | .error _ => (.error (.failed "Failed triggering installation"), d)
              | .ok channel => (.ok passphrase, { d with channel := channel })

/-- `main` wakes up with a recipe and calls `do_install`; the receiver is gone then. -/
def Daemon.receive (d : Daemon) : Option Daemon :=
  match d.channel with
  | .sent recipe =>
      some { d with channel := .closed, started := some ⟨recipe, d.hasTpm2, d.hasPcrlock⟩ }
  | .waiting | .closed => none

/-- What happens in a daemon: a call is answered, or `main` wakes up. -/
inductive Event where
  | call (c : Call) (reply : Except FdoError String)
  | receive

inductive Daemon.Step : Daemon → Event → Daemon → Prop where
  | call (d : Daemon) (c : Call) : Step d (.call c (d.install c).1) (d.install c).2
  | receive {d d' : Daemon} : d.receive = some d' → Step d .receive d'

end GnomeBuildMeta.Installer
