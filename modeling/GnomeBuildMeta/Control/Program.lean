import GnomeBuildMeta.Control.Except
import Mathlib.Logic.Basic

/-!
# Programs whose state survives an error

A program reads and changes a state and ends with a value or with an error; a
change that was made before an error stays.  `Ensures` is partial correctness
with a postcondition for either ending.
-/

namespace GnomeBuildMeta.Control

/-- A program over the state `σ` that may end in an error `ε`. -/
def Program (ε σ α : Type) : Type := σ → Except ε α × σ

namespace Program

variable {ε σ α β : Type}

def pure (a : α) : Program ε σ α := fun s => (.ok a, s)

def bind (m : Program ε σ α) (f : α → Program ε σ β) : Program ε σ β := fun s =>
  match m s with
  | (.ok a, s') => f a s'
  | (.error e, s') => (.error e, s')

instance : Monad (Program ε σ) where
  pure := pure
  bind := bind

instance : LawfulMonad (Program ε σ) :=
  LawfulMonad.mk' _
    (by
      intro α m
      funext s
      change Program.bind m (fun a => Program.pure (id a)) s = m s
      unfold Program.bind
      cases m s with
      | mk result s' => cases result <;> rfl)
    (fun _ _ => rfl)
    (by
      intro α β γ m f g
      funext s
      change Program.bind (Program.bind m f) g s = Program.bind m (fun a => Program.bind (f a) g) s
      unfold Program.bind
      cases m s with
      | mk result s' => cases result <;> rfl)

def fail (e : ε) : Program ε σ α := fun s => (.error e, s)

/-- A step outside the modelled state, which only succeeds or fails. -/
def outside (outcome : Except ε α) : Program ε σ α := fun s => (outcome, s)

/-- A step that changes the state if it succeeds and leaves it alone otherwise. -/
def change (f : σ → Except ε σ) : Program ε σ Unit := fun s =>
  match f s with
  | .ok s' => (.ok (), s')
  | .error e => (.error e, s)

/-- A change that always succeeds. -/
def update (f : σ → σ) : Program ε σ Unit := fun s => (.ok (), f s)

/-- The state as it is. -/
def get : Program ε σ σ := fun s => (.ok s, s)

theorem get_bind (f : σ → Program ε σ α) (s : σ) : (get >>= f) s = f s s := rfl

theorem bind_ok_iff {m : Program ε σ α} {f : α → Program ε σ β} {b : β} {s s' : σ} :
    (m >>= f) s = (.ok b, s') ↔ ∃ a middle, m s = (.ok a, middle) ∧ f a middle = (.ok b, s') := by
  change Program.bind m f s = (.ok b, s') ↔ _
  unfold Program.bind
  cases run : m s with
  | mk result middle =>
      cases result with
      | ok a =>
          constructor
          · intro done
            exact ⟨a, middle, rfl, done⟩
          · rintro ⟨a', middle', same, done⟩
            cases same
            exact done
      | error e =>
          constructor
          · intro impossible
            cases impossible
          · rintro ⟨a', middle', impossible, _⟩
            cases impossible

theorem outside_ok_iff {outcome : Except ε α} {a : α} {s s' : σ} :
    (outside outcome : Program ε σ α) s = (.ok a, s') ↔ outcome = .ok a ∧ s = s' := by
  simp [outside]

theorem change_ok_iff {f : σ → Except ε σ} {s s' : σ} :
    change f s = (.ok (), s') ↔ f s = .ok s' := by
  unfold change
  cases f s <;> simp

/-- A loop succeeds like the fold of its successful steps. -/
theorem forM_ok_iff {f : β → Program ε σ Unit} {g : σ → β → Except ε σ}
    (each : ∀ b s s', f b s = (.ok (), s') ↔ g s b = .ok s') {list : List β} {s s' : σ} :
    (list.forM f) s = (.ok (), s') ↔ list.foldlM g s = .ok s' := by
  induction list generalizing s with
  | nil =>
      change (Except.ok (), s) = (.ok (), s') ↔ Except.ok s = .ok s'
      simp
  | cons b rest ih =>
      change (f b >>= fun _ => rest.forM f) s = (.ok (), s') ↔ _
      rw [bind_ok_iff, List.foldlM_cons, Control.bind_ok_iff]
      constructor
      · rintro ⟨_, middle, first, later⟩
        exact ⟨middle, (each b s middle).mp first, ih.mp later⟩
      · rintro ⟨middle, first, later⟩
        exact ⟨(), middle, (each b s middle).mpr first, ih.mpr later⟩

/-- A loop that succeeds is a fold of what its steps are seen to do. -/
theorem forM_view {τ : Type} (view : σ → τ) {f : β → Program ε σ Unit} {g : τ → β → Except ε τ}
    {list : List β} (each : ∀ b ∈ list, ∀ s s', f b s = (.ok (), s') → g (view s) b = .ok (view s'))
    {s s' : σ} (done : list.forM f s = (.ok (), s')) : list.foldlM g (view s) = .ok (view s') := by
  induction list generalizing s with
  | nil =>
      cases done
      rfl
  | cons b rest ih =>
      obtain ⟨_, middle, first, later⟩ := bind_ok_iff.mp done
      rw [List.foldlM_cons, Control.bind_ok_iff]
      exact ⟨view middle, each b List.mem_cons_self s middle first,
        ih (fun other member => each other (List.mem_cons_of_mem _ member)) later⟩

/-- From every state with `P` the program ends in a result and a state with `Q`. -/
def Ensures (P : σ → Prop) (m : Program ε σ α) (Q : Except ε α → σ → Prop) : Prop :=
  ∀ s, P s → Q (m s).1 (m s).2

namespace Ensures

variable {P R : σ → Prop} {Q : Except ε β → σ → Prop}

theorem pure {b : β} (post : ∀ s, P s → Q (.ok b) s) :
    Ensures P (Pure.pure b : Program ε σ β) Q := post

/-- The second program starts where the first one ends without an error. -/
theorem bind {m : Program ε σ α} {f : α → Program ε σ β} (I : α → σ → Prop)
    (first : Ensures P m fun result s =>
      match result with
      | .ok a => I a s
      | .error e => Q (.error e) s)
    (second : ∀ a, Ensures (I a) (f a) Q) : Ensures P (m >>= f) Q := by
  intro s holds
  have middle := first s holds
  change Q (Program.bind m f s).1 (Program.bind m f s).2
  unfold Program.bind
  cases run : m s with
  | mk result s' =>
      rw [run] at middle
      cases result with
      | ok a => exact second a s' middle
      | error e => exact middle

/-- A change is made, or it fails and leaves the state as it is. -/
theorem change {f : σ → Except ε σ} {Q : Except ε Unit → σ → Prop}
    (changed : ∀ s s', P s → f s = .ok s' → Q (.ok ()) s')
    (failed : ∀ s e, P s → f s = .error e → Q (.error e) s) : Ensures P (Program.change f) Q := by
  intro s holds
  unfold Program.change
  cases result : f s with
  | ok s' => exact changed s s' holds result
  | error e => exact failed s e holds result

theorem strengthen {m : Program ε σ β} (stronger : ∀ s, R s → P s) (ensures : Ensures P m Q) :
    Ensures R m Q := fun s holds => ensures s (stronger s holds)

/-- A postcondition may be read for either ending on its own. -/
theorem cases {m : Program ε σ α} {Q : Except ε α → σ → Prop} {I : α → σ → Prop}
    {E : ε → σ → Prop} (ensures : Ensures P m Q) (ok : ∀ a s, Q (.ok a) s → I a s)
    (error : ∀ e s, Q (.error e) s → E e s) :
    Ensures P m fun result s =>
      match result with
      | .ok a => I a s
      | .error e => E e s := by
  intro s holds
  have after := ensures s holds
  cases result : (m s).1 with
  | ok a => exact ok a _ (result ▸ after)
  | error e => exact error e _ (result ▸ after)

/-- What two programs in a row achieve if both end without an error. -/
theorem bind_ok {m : Program ε σ α} {f : α → Program ε σ β} {P R T : σ → Prop}
    (first : Ensures P m fun result s => result.isOk = true → R s)
    (next : ∀ a, Ensures R (f a) fun result s => result.isOk = true → T s) :
    Ensures P (m >>= f) fun result s => result.isOk = true → T s := by
  refine Ensures.bind (fun _ => R) (fun s holds => ?_) next
  have after := first s holds
  cases result : (m s).1 with
  | ok a => exact after (by rw [result]; rfl)
  | error e => exact fun impossible => by cases impossible

/-- A program that ends with a known result, followed by another one. -/
theorem bind_value {m : Program ε σ α} {f : α → Program ε σ β} {P R : σ → Prop}
    {Q : Except ε β → σ → Prop} (a : α) (first : Ensures P m fun result s => result = .ok a ∧ R s)
    (next : Ensures R (f a) Q) : Ensures P (m >>= f) Q := by
  refine Ensures.bind (fun b s => b = a ∧ R s) (fun s holds => ?_) fun b s after => ?_
  · obtain ⟨result, after⟩ := first s holds
    rw [result]
    exact ⟨rfl, after⟩
  · obtain ⟨rfl, holds⟩ := after
    exact next s holds

/-- The invariant of a loop, with what a step that fails leaves. -/
theorem forM {f : α → Program ε σ Unit} {list : List α} {I : σ → Prop}
    {Q : Except ε Unit → σ → Prop} (last : ∀ s, I s → Q (.ok ()) s)
    (each : ∀ a ∈ list, ∀ s, I s → ((f a s).1 = .ok () → I (f a s).2) ∧
      ∀ e, (f a s).1 = .error e → Q (.error e) (f a s).2) : Ensures I (list.forM f) Q := by
  induction list with
  | nil => exact last
  | cons a rest ih =>
      refine Ensures.bind (fun _ => I) (fun s holds => ?_) fun _ =>
        ih fun other member => each other (List.mem_cons_of_mem _ member)
      obtain ⟨goesOn, fails⟩ := each a List.mem_cons_self s holds
      cases result : (f a s).1 with
      | ok _ => exact goesOn result
      | error e => exact fails e result

end Ensures

/--
From every state with `P` the program leads to a state with `R`, and it ends
without an error exactly if `b` says so.
-/
def Decided (P : σ → Prop) (m : Program ε σ α) (b : Bool) (R : σ → Prop) : Prop :=
  Ensures P m fun result s => R s ∧ result.isOk = b

namespace Decided

variable {P R S : σ → Prop} {b c : Bool}

theorem pure (a : α) : Decided P (Pure.pure a : Program ε σ α) true P :=
  fun _ holds => ⟨holds, rfl⟩

theorem outside (outcome : Except ε α) :
    Decided P (Program.outside outcome : Program ε σ α) outcome.isOk P :=
  fun _ holds => ⟨holds, rfl⟩

theorem update {f : σ → σ} (step : ∀ s, P s → R (f s)) :
    Decided P (Program.update f : Program ε σ Unit) true R :=
  fun s holds => ⟨step s holds, rfl⟩

theorem change {f : σ → Except ε σ} (step : ∀ s, P s → ∃ s', f s = .ok s' ∧ R s') :
    Decided P (Program.change f) true R := by
  intro s holds
  obtain ⟨s', changed, after⟩ := step s holds
  simp only [Program.change, changed]
  exact ⟨after, rfl⟩

/-- A decided program followed by another one. -/
theorem ensures_bind {m : Program ε σ α} {f : α → Program ε σ β} {Q : Except ε β → σ → Prop}
    (first : Decided P m b R) (failed : b = false → ∀ e s, R s → Q (.error e) s)
    (next : b = true → ∀ a, Ensures R (f a) Q) : Ensures P (m >>= f) Q := by
  cases b with
  | true =>
      refine Ensures.bind (fun _ => R) (fun s holds => ?_) (next rfl)
      obtain ⟨after, ended⟩ := first s holds
      cases result : (m s).1 with
      | ok a => exact after
      | error e => rw [result] at ended; cases ended
  | false =>
      refine Ensures.bind (fun _ _ => False) (fun s holds => ?_) fun _ _ impossible => impossible.elim
      obtain ⟨after, ended⟩ := first s holds
      cases result : (m s).1 with
      | ok a => rw [result] at ended; cases ended
      | error e => exact failed rfl e _ after

/-- A program that succeeds followed by another one. -/
theorem followed {m : Program ε σ α} {f : α → Program ε σ β} {Q : Except ε β → σ → Prop}
    (first : Decided P m true R) (next : ∀ a, Ensures R (f a) Q) : Ensures P (m >>= f) Q :=
  first.ensures_bind (fun impossible => by cases impossible) fun _ => next

/-- Two decided programs in a row; what the second one starts from survives its failure. -/
theorem bind {m : Program ε σ α} {f : α → Program ε σ β} (first : Decided P m b R)
    (second : ∀ a, Decided R (f a) c R) : Decided P (m >>= f) (b && c) R := by
  refine first.ensures_bind ?_ ?_
  · rintro rfl e s after
    exact ⟨after, rfl⟩
  · rintro rfl a
    exact second a

end Decided

/-- The program keeps a property of the state, however it ends. -/
def Keeps (I : σ → Prop) (m : Program ε σ α) : Prop := Ensures I m fun _ => I

namespace Keeps

variable {I : σ → Prop}

theorem pure (a : α) : Keeps I (Pure.pure a : Program ε σ α) := fun _ holds => holds

theorem bind {m : Program ε σ α} {f : α → Program ε σ β} (first : Keeps I m)
    (second : ∀ a, Keeps I (f a)) : Keeps I (m >>= f) :=
  Ensures.bind (fun _ => I) (first.cases (fun _ _ after => after) fun _ _ after => after) second

theorem outside (outcome : Except ε α) : Keeps I (Program.outside outcome : Program ε σ α) :=
  fun _ holds => holds

theorem update {f : σ → σ} (step : ∀ s, I s → I (f s)) : Keeps I (update f : Program ε σ Unit) :=
  step

theorem forM {f : β → Program ε σ Unit} {list : List β} (each : ∀ b ∈ list, Keeps I (f b)) :
    Keeps I (list.forM f) := by
  induction list with
  | nil => exact fun _ holds => holds
  | cons b rest ih =>
      exact (each b List.mem_cons_self).bind fun _ =>
        ih fun other member => each other (List.mem_cons_of_mem _ member)

end Keeps

/-- A loop whose steps each achieve something that the later ones leave. -/
theorem forM_each {f : β → Program ε σ Unit} {list : List β} {I E : σ → Prop} {D : β → σ → Prop}
    (each : ∀ b ∈ list, ∀ s, I s → E (f b s).2 ∧
      ((f b s).1 = .ok () → I (f b s).2 ∧ D b (f b s).2))
    (stays : ∀ b c s, D b s → D b (f c s).2) (weaker : ∀ s, I s → E s) {s : σ} (holds : I s) :
    E (list.forM f s).2 ∧ ((list.forM f s).1 = .ok () →
      I (list.forM f s).2 ∧ ∀ b ∈ list, D b (list.forM f s).2) := by
  -- what is achieved stays to the end of the loop
  have kept : ∀ (b : β) (list : List β) (s : σ), D b s → D b (list.forM f s).2 := by
    intro b list s achieved
    exact (Keeps.forM fun c _ s achieved => stays b c s achieved : Keeps (D b) (list.forM f)) s achieved
  induction list generalizing s with
  | nil => exact ⟨weaker s holds, fun _ => ⟨holds, fun _ impossible => (List.not_mem_nil impossible).elim⟩⟩
  | cons b rest ih =>
      obtain ⟨left, achieves⟩ := each b List.mem_cons_self s holds
      change E (Program.bind (f b) (fun _ => rest.forM f) s).2 ∧ _
      change _ ∧ ((Program.bind (f b) (fun _ => rest.forM f) s).1 = _ →
        I (Program.bind (f b) (fun _ => rest.forM f) s).2 ∧
          ∀ c ∈ b :: rest, D c (Program.bind (f b) (fun _ => rest.forM f) s).2)
      unfold Program.bind
      cases run : f b s with
      | mk result middle =>
          rw [run] at left achieves
          cases result with
          | error e =>
              refine ⟨left, fun impossible => ?_⟩
              cases impossible
          | ok _ =>
              obtain ⟨holds', achieved⟩ := achieves rfl
              obtain ⟨last, whole⟩ :=
                ih (fun other member => each other (List.mem_cons_of_mem _ member)) holds'
              refine ⟨last, fun done => ⟨(whole done).1, fun c member => ?_⟩⟩
              rcases List.mem_cons.mp member with rfl | later
              · exact kept c rest middle achieved
              · exact (whole done).2 c later

/-- Loops whose steps agree wherever the invariant holds agree. -/
theorem forM_congr {f g : β → Program ε σ Unit} {list : List β} {I : σ → Prop}
    (same : ∀ b ∈ list, ∀ s, I s → f b s = g b s) (keeps : ∀ b ∈ list, Keeps I (f b)) {s : σ}
    (holds : I s) : list.forM f s = list.forM g s := by
  induction list generalizing s with
  | nil => rfl
  | cons b rest ih =>
      change Program.bind (f b) (fun _ => rest.forM f) s = Program.bind (g b) (fun _ => rest.forM g) s
      have after := keeps b List.mem_cons_self s holds
      unfold Program.bind
      rw [← same b List.mem_cons_self s holds]
      cases run : f b s with
      | mk result middle =>
          rw [run] at after
          cases result with
          | ok _ =>
              exact ih (fun other member => same other (List.mem_cons_of_mem _ member))
                (fun other member => keeps other (List.mem_cons_of_mem _ member)) after
          | error e => rfl

end Program

end GnomeBuildMeta.Control
