import GnomeBuildMeta.Sorting.BinaryInsertion

/-!
# Sorting elements that replace others

A comparison says of some elements that each goes before the one element that it
replaces, and nothing of the others.  This module says when binary insertion
puts all of them there.
-/

namespace GnomeBuildMeta.Sorting

variable {α : Type} (less : α → α → Bool)

/-- Every element replaces one of the others at most, and nothing replaces it then. -/
structure Replaces (list : List α) : Prop where
  nodup : list.Nodup
  apart : ∀ {a b c : α}, less a b = true → less b c = false
  one : ∀ a, ∀ b ∈ list, ∀ c ∈ list, less a b = true → less a c = true → b = c

/-- No later element goes before an earlier one. -/
def Settled (list : List α) : Prop := list.Pairwise fun a b => less b a = false

/-- An element goes before the one that it replaces, or to the end. -/
def place (acc : List α) (x : α) : List α := acc.orderedInsert (fun a b => less a b = true) x

def arranged (list : List α) : List α := list.foldl (place less) []

theorem arranged_concat (list : List α) (x : α) :
    arranged less (list ++ [x]) = place less (arranged less list) x := by
  rw [arranged, List.foldl_append]
  rfl

theorem arranged_perm (list : List α) : (arranged less list).Perm list := by
  induction list using List.reverseRecOn with
  | nil => exact .refl _
  | append_singleton list x ih =>
      rw [arranged_concat]
      exact (List.perm_orderedInsert _ x _).trans
        ((ih.cons x).trans (List.perm_append_singleton x list).symm)

variable {less}

theorem Replaces.left {list rest : List α} (replaces : Replaces less (list ++ rest)) :
    Replaces less list where
  nodup := replaces.nodup.of_append_left
  apart := replaces.apart
  one a b inB c inC := replaces.one a b (List.mem_append_left _ inB) c (List.mem_append_left _ inC)

/-! ## One place -/

theorem place_cons (b : α) (acc : List α) (x : α) :
    place less (b :: acc) x = if less x b = true then x :: b :: acc else b :: place less acc x :=
  List.orderedInsert_cons ..

theorem mem_place {acc : List α} {x a : α} : a ∈ place less acc x ↔ a = x ∨ a ∈ acc :=
  List.mem_orderedInsert _

theorem place_none {front : List α} {x : α} (none : ∀ b ∈ front, less x b = false) (back : List α) :
    place less (front ++ back) x = front ++ place less back x := by
  induction front with
  | nil => rfl
  | cons b front ih =>
      have notHere : ¬ less x b = true := Bool.eq_false_iff.mp (none b List.mem_cons_self)
      rw [List.cons_append, place_cons, if_neg notHere,
        ih fun c inside => none c (List.mem_cons_of_mem b inside)]
      rfl

theorem place_some {front : List α} {x : α} (some : ∃ b ∈ front, less x b = true) (back : List α) :
    place less (front ++ back) x = place less front x ++ back := by
  induction front with
  | nil =>
      obtain ⟨b, inside, _⟩ := some
      cases inside
  | cons b front ih =>
      rw [List.cons_append, place_cons, place_cons]
      split
      · rfl
      · next other =>
        obtain ⟨c, inside, related⟩ := some
        rcases List.mem_cons.mp inside with rfl | later
        · exact absurd related other
        · rw [ih ⟨c, later, related⟩]
          rfl

/-- An element that replaces nothing in the list goes to the end. -/
theorem place_last {x : α} {acc : List α} (none : ∀ b ∈ acc, less x b = false) :
    place less acc x = acc ++ [x] := by
  have whole := place_none none []
  rwa [List.append_nil] at whole

/-- What replaces another element is not replaced itself. -/
theorem Replaces.last {list : List α} (replaces : Replaces less list) {x b : α}
    (replaced : less x b = true) (c : α) : less c x = false := by
  rw [Bool.eq_false_iff]
  intro other
  have impossible := replaces.apart (c := b) other
  rw [replaced] at impossible
  cases impossible

theorem place_settled {acc : List α} {x : α} (last : ∀ c, less c x = false)
    (settled : Settled less acc) : Settled less (place less acc x) := by
  induction acc with
  | nil => exact List.pairwise_singleton _ _
  | cons c acc ih =>
      obtain ⟨first, rest⟩ := List.pairwise_cons.mp settled
      rw [place_cons]
      split
      · exact List.pairwise_cons.mpr ⟨fun d _ => last d, settled⟩
      · next notHere =>
        refine List.pairwise_cons.mpr ⟨fun d member => ?_, ih rest⟩
        rcases mem_place.mp member with rfl | later
        · exact Bool.eq_false_iff.mpr notHere
        · exact first d later

theorem arranged_settled {list : List α} (replaces : Replaces less list) :
    Settled less (arranged less list) := by
  induction list using List.reverseRecOn with
  | nil => exact List.Pairwise.nil
  | append_singleton list x ih =>
      have before := ih replaces.left
      rw [arranged_concat]
      by_cases some : ∃ b ∈ arranged less list, less x b = true
      · obtain ⟨b, _, replaced⟩ := some
        exact place_settled (replaces.last replaced) before
      · have none : ∀ b ∈ arranged less list, less x b = false := fun b inside =>
          Bool.eq_false_iff.mpr fun replaced => some ⟨b, inside, replaced⟩
        rw [place_last none]
        refine List.pairwise_append.mpr ⟨before, List.pairwise_singleton _ _, fun b inside c member => ?_⟩
        rw [List.mem_singleton.mp member]
        exact none b inside

theorem arranged_of_settled {list : List α} (settled : Settled less list) :
    arranged less list = list := by
  induction list using List.reverseRecOn with
  | nil => rfl
  | append_singleton list x ih =>
      obtain ⟨before, _, last⟩ := List.pairwise_append.mp settled
      rw [arranged_concat, ih before]
      exact place_last fun b inside => last b inside x (List.mem_singleton_self x)

/-! ## How far from the end an element is -/

/-- The elements between `c` and the end that do not go before `c` or an earlier one. -/
def behind (less : α → α → Bool) (front : List α) (c : α) (mid : List α) : List α :=
  mid.filter fun y => !(front ++ [c]).any (less y)

/-- By induction on what follows the element: where it is when the list is arranged. -/
theorem arranged_split {front mid : List α} {c : α} (replaces : Replaces less (front ++ c :: mid))
    (replaced : ∃ x, less x c = true) :
    ∃ before after, arranged less (front ++ c :: mid) = before ++ c :: after ∧
      after.length = (behind less front c mid).length ∧
        ∀ t, (∃ s, less s t = true) → (t ∈ before ↔ t ∈ front) := by
  induction mid using List.reverseRecOn with
  | nil =>
      obtain ⟨x, replaced⟩ := replaced
      refine ⟨arranged less front, [], ?_, rfl, fun t _ => (arranged_perm less front).mem_iff⟩
      rw [arranged_concat]
      exact place_last fun b _ => replaces.apart replaced
  | append_singleton mid y ih =>
      rw [← List.cons_append, ← List.append_assoc] at replaces ⊢
      obtain ⟨before, after, split, size, targets⟩ := ih replaces.left
      have counted : behind less front c (mid ++ [y]) = behind less front c mid ++
          if (front ++ [c]).any (less y) then [] else [y] := by
        rw [behind, behind, List.filter_append, List.filter_singleton]
        cases (front ++ [c]).any (less y) <;> rfl
      have anyOf : (front ++ [c]).any (less y) = true ↔ (∃ t ∈ before, less y t = true) ∨ less y c = true := by
        rw [List.any_append, Bool.or_eq_true, List.any_eq_true]
        refine or_congr ?_ (by simp)
        constructor
        · rintro ⟨t, inside, replaces'⟩
          exact ⟨t, (targets t ⟨y, replaces'⟩).mpr inside, replaces'⟩
        · rintro ⟨t, inside, replaces'⟩
          exact ⟨t, (targets t ⟨y, replaces'⟩).mp inside, replaces'⟩
      rw [arranged_concat, split, counted]
      by_cases early : (∃ t ∈ before, less y t = true) ∨ less y c = true
      · rw [if_pos (anyOf.mpr early), List.append_nil]
        have notTarget : ∀ s, less s y = false := by
          rcases early with ⟨t, _, replaces'⟩ | replaces'
          · exact replaces.last replaces'
          · exact replaces.last replaces'
        have stays : ∀ (before' : List α), (∀ t, t ∈ before' ↔ t = y ∨ t ∈ before) →
            ∀ t, (∃ s, less s t = true) → (t ∈ before' ↔ t ∈ front) := by
          rintro before' added t ⟨s, isTarget⟩
          rw [added, ← targets t ⟨s, isTarget⟩]
          refine or_iff_right fun same => ?_
          rw [same, notTarget s] at isTarget
          cases isTarget
        by_cases inBefore : ∃ t ∈ before, less y t = true
        · exact ⟨place less before y, after, place_some inBefore _, size, stays _ fun t => mem_place⟩
        · have here : less y c = true := early.resolve_left inBefore
          have none : ∀ b ∈ before, less y b = false := fun b inside =>
            Bool.eq_false_iff.mpr fun replaces' => inBefore ⟨b, inside, replaces'⟩
          refine ⟨before ++ [y], after, ?_, size, stays _ fun t => ?_⟩
          · rw [place_none none, place_cons, if_pos here, List.append_assoc]
            rfl
          · rw [List.mem_append, List.mem_singleton, or_comm]
      · rw [if_neg (mt anyOf.mp early)]
        obtain ⟨notBefore, notHere⟩ := not_or.mp early
        have none : ∀ b ∈ before, less y b = false := fun b inside =>
          Bool.eq_false_iff.mpr fun replaces' => notBefore ⟨b, inside, replaces'⟩
        refine ⟨before, place less after y, ?_, ?_, targets⟩
        · rw [place_none none, place_cons, if_neg notHere]
        · rw [place, List.orderedInsert_length, List.length_append, size]
          rfl

/-! ## What the search finds -/

/--
The insertions have begun when `x` comes, and the search for its place looks at
the element `c` that it replaces.
-/
structure Found (less : α → α → Bool) (front : List α) (c : α) (mid : List α) (x : α) : Prop where
  started : ¬ NoDescent less (front ++ c :: (mid ++ [x]))
  looked : (behind less front c mid).length + 1 ∈ probed (front ++ c :: mid).length

/-- Every element that stands behind the one that it replaces comes across it. -/
def AllFound (less : α → α → Bool) (list : List α) : Prop :=
  ∀ front c mid x rest, list = front ++ c :: (mid ++ x :: rest) → less x c = true →
    Found less front c mid x

theorem allFound_concat {list : List α} {x : α} : AllFound less (list ++ [x]) ↔
    AllFound less list ∧
      ∀ front c mid, list = front ++ c :: mid → less x c = true → Found less front c mid x := by
  constructor
  · intro all
    refine ⟨fun front c mid y rest split => ?_, fun front c mid split => ?_⟩
    · refine all front c mid y (rest ++ [x]) ?_
      rw [split]
      simp
    · refine all front c mid x [] ?_
      rw [split]
      simp
  · rintro ⟨before, last⟩ front c mid y rest split
    have joined : list ++ [x] = (front ++ c :: mid) ++ y :: rest := by simpa using split
    rcases Control.snoc_eq_append_cons joined with ⟨_, same, rfl⟩ | ⟨rest', _, same⟩
    · exact last front c mid same.symm
    · exact before front c mid y rest' (by rw [same]; simp)

theorem not_settled_concat {list front mid : List α} {c x : α} (perm : list.Perm (front ++ c :: mid))
    (replaced : less x c = true) : ¬ Settled less (list ++ [x]) := by
  intro settled
  obtain ⟨_, _, last⟩ := List.pairwise_append.mp settled
  have inside : c ∈ list := perm.symm.subset (List.mem_append_right _ List.mem_cons_self)
  have impossible := last c inside x (List.mem_singleton_self x)
  rw [replaced] at impossible
  cases impossible

theorem binaryInsert_none {acc : List α} {x : α} (none : ∀ b ∈ acc, less x b = false) :
    binaryInsert less acc x = acc ++ [x] := by
  have last : position less acc x 0 acc.length = acc.length := by
    refine position_none 0 _ (Nat.zero_le _) fun p _ inside => ?_
    rw [List.getElem?_eq_getElem inside]
    exact none _ (List.getElem_mem inside)
  rw [binaryInsert, last, insertAt, List.take_length, List.drop_length]

theorem binaryInsert_one {before after : List α} {c x : α} (replaced : less x c = true)
    (others : ∀ b ∈ before ++ after, less x b = false) :
    binaryInsert less (before ++ c :: after) x =
      if after.length + 1 ∈ probed (before ++ c :: after).length then before ++ x :: c :: after
      else before ++ c :: after ++ [x] := by
  have one : ∀ p, 0 ≤ p → p < (before ++ c :: after).length →
      ((before ++ c :: after)[p]?.any (less x) = true ↔ p = before.length) := by
    intro p _ inside
    rcases Nat.lt_trichotomy p before.length with early | rfl | late
    · have notHere := others before[p] (List.mem_append_left _ (List.getElem_mem early))
      rw [List.getElem?_append_left early, List.getElem?_eq_getElem early]
      refine iff_of_false (Bool.eq_false_iff.mp notHere) (by omega)
    · simpa using replaced
    · obtain ⟨k, rfl⟩ : ∃ k, p = before.length + (k + 1) := ⟨p - before.length - 1, by omega⟩
      have short : k < after.length := by
        rw [List.length_append, List.length_cons] at inside
        omega
      have notHere := others after[k] (List.mem_append_right _ (List.getElem_mem short))
      rw [List.getElem?_append_right (by omega), Nat.add_sub_cancel_left, List.getElem?_cons_succ,
        List.getElem?_eq_getElem short]
      refine iff_of_false (Bool.eq_false_iff.mp notHere) (by omega)
  have length : (before ++ c :: after).length = before.length + (after.length + 1) := by simp
  have found := position_one 0 _ (Nat.zero_le _) (by omega) one
  rw [Nat.sub_zero, show (before ++ c :: after).length - before.length = after.length + 1 by omega]
    at found
  rw [binaryInsert, found]
  split
  · rw [insertAt, List.take_left, List.drop_left]
  · rw [insertAt, List.take_length, List.drop_length]

/-- By the search an element gets to its place, or stays behind the one that it replaces. -/
theorem binaryInsert_split {front mid : List α} {c x : α}
    (replaces : Replaces less (front ++ c :: mid ++ [x])) (replaced : less x c = true) :
    binaryInsert less (arranged less (front ++ c :: mid)) x =
      if (behind less front c mid).length + 1 ∈ probed (front ++ c :: mid).length then
        arranged less (front ++ c :: mid ++ [x])
      else arranged less (front ++ c :: mid) ++ [x] := by
  obtain ⟨before, after, split, size, _⟩ := arranged_split replaces.left ⟨x, replaced⟩
  have perm := arranged_perm less (front ++ c :: mid)
  have nodup : (before ++ c :: after).Nodup := by
    rw [← split]
    exact perm.nodup_iff.mpr replaces.left.nodup
  have inList : ∀ b ∈ before ++ c :: after, b ∈ front ++ c :: mid ++ [x] := by
    intro b inside
    rw [← split] at inside
    exact List.mem_append_left _ (perm.subset inside)
  have others : ∀ b ∈ before ++ after, less x b = false := by
    intro b inside
    rw [Bool.eq_false_iff]
    intro other
    have within : b ∈ before ++ c :: after := by
      rcases List.mem_append.mp inside with early | late
      · exact List.mem_append_left _ early
      · exact List.mem_append_right _ (List.mem_cons_of_mem c late)
    have same := replaces.one x b (inList b within) c (inList c (by simp)) other replaced
    rw [same] at inside
    exact (List.nodup_cons.mp (List.perm_middle.nodup_iff.mp nodup)).1 inside
  have none : ∀ b ∈ before, less x b = false := fun b inside => others b (List.mem_append_left _ inside)
  rw [arranged_concat, split, place_none none, place_cons, if_pos replaced,
    binaryInsert_one replaced others, ← split, perm.length_eq, size]

/-! ## The whole sort -/

/-- The elements treated so far are arranged, or one of them is behind for good. -/
def Treated (less : α → α → Bool) (list acc : List α) : Prop :=
  (AllFound less list ∧ acc = arranged less list) ∨ (¬ AllFound less list ∧ ¬ Settled less acc)

theorem Treated.insert {list acc : List α} {x : α} (treated : Treated less list acc)
    (replaces : Replaces less (list ++ [x])) (started : ¬ NoDescent less (list ++ [x])) :
    Treated less (list ++ [x]) (binaryInsert less acc x) := by
  rcases treated with ⟨all, rfl⟩ | ⟨missed, unsettled⟩
  · by_cases found : ∀ front c mid, list = front ++ c :: mid → less x c = true →
        Found less front c mid x
    · refine Or.inl ⟨allFound_concat.mpr ⟨all, found⟩, ?_⟩
      by_cases some : ∃ c ∈ list, less x c = true
      · obtain ⟨c, inside, replaced⟩ := some
        obtain ⟨front, mid, rfl⟩ := List.append_of_mem inside
        rw [binaryInsert_split replaces replaced, if_pos (found front c mid rfl replaced).looked]
      · have none : ∀ b ∈ arranged less list, less x b = false := fun b inside =>
          Bool.eq_false_iff.mpr fun replaced => some ⟨b, (arranged_perm less list).subset inside, replaced⟩
        rw [binaryInsert_none none, arranged_concat, place_last none]
    · push Not at found
      obtain ⟨front, c, mid, rfl, replaced, notFound⟩ := found
      have missed : (behind less front c mid).length + 1 ∉ probed (front ++ c :: mid).length := by
        intro looked
        refine notFound ⟨?_, looked⟩
        rwa [List.append_assoc, List.cons_append] at started
      refine Or.inr ⟨fun all' => notFound ((allFound_concat.mp all').2 front c mid rfl replaced), ?_⟩
      rw [binaryInsert_split replaces replaced, if_neg missed]
      exact not_settled_concat (arranged_perm less _) replaced
  · refine Or.inr ⟨fun all => missed (allFound_concat.mp all).1, fun settled => ?_⟩
    exact unsettled (settled.sublist (sublist_insertAt _ _ _))

/-- Two elements that are the wrong way around, where a list is not settled. -/
theorem exists_of_not_settled {list : List α} (unsettled : ¬ Settled less list) :
    ∃ front c mid x rest, list = front ++ c :: (mid ++ x :: rest) ∧ less x c = true := by
  induction list with
  | nil => exact absurd List.Pairwise.nil unsettled
  | cons c list ih =>
      by_cases later : Settled less list
      · have some : ¬ ∀ x ∈ list, less x c = false := fun none =>
          unsettled (List.pairwise_cons.mpr ⟨none, later⟩)
        push Not at some
        obtain ⟨x, inside, replaced⟩ := some
        obtain ⟨mid, rest, rfl⟩ := List.append_of_mem inside
        exact ⟨[], c, mid, x, rest, rfl, by simpa using replaced⟩
      · obtain ⟨front, d, mid, x, rest, rfl, replaced⟩ := ih later
        exact ⟨c :: front, d, mid, x, rest, rfl, replaced⟩

theorem allFound_of_settled {list : List α} (settled : Settled less list) : AllFound less list := by
  intro front c mid x rest split replaced
  rw [split] at settled
  have order := (List.pairwise_append.mp settled).2.1
  have impossible := (List.pairwise_cons.mp order).1 x (by simp)
  rw [replaced] at impossible
  cases impossible

/-- Nothing has begun in a list without a descent. -/
theorem allFound_iff_of_noDescent {list : List α} (chain : NoDescent less list) :
    AllFound less list ↔ Settled less list := by
  refine ⟨fun all => ?_, allFound_of_settled⟩
  by_contra unsettled
  obtain ⟨front, c, mid, x, rest, rfl, replaced⟩ := exists_of_not_settled unsettled
  have begun : NoDescent less (front ++ c :: (mid ++ [x])) := by
    refine List.IsChain.prefix chain ⟨rest, ?_⟩
    simp
  exact (all front c mid x rest rfl replaced).started begun

theorem Treated.of_noDescent {list : List α} (chain : NoDescent less list) : Treated less list list := by
  by_cases settled : Settled less list
  · exact Or.inl ⟨allFound_of_settled settled, (arranged_of_settled settled).symm⟩
  · exact Or.inr ⟨mt (allFound_iff_of_noDescent chain).mp settled, settled⟩

theorem NoDescent.left {list rest : List α} (chain : NoDescent less (list ++ rest)) :
    NoDescent less list := List.IsChain.left_of_append chain

/-- By induction on what is still to be inserted. -/
theorem Treated.foldl {list acc rest : List α} (treated : Treated less list acc)
    (replaces : Replaces less (list ++ rest))
    (started : ∀ x later, rest = x :: later → ¬ NoDescent less (list ++ [x])) :
    Treated less (list ++ rest) (rest.foldl (binaryInsert less) acc) := by
  induction rest generalizing list acc with
  | nil =>
      rw [List.append_nil]
      exact treated
  | cons x rest ih =>
      have now := started x rest rfl
      rw [List.append_cons] at replaces ⊢
      refine ih (treated.insert replaces.left now) replaces fun y later _ chain => ?_
      exact now chain.left

/-- The run at the start is one element that goes before another one, or goes up. -/
theorem countRun_treated {list : List α} (replaces : Replaces less list) :
    ∃ start, list = start ++ (countRun less list).2 ∧ Treated less start (countRun less list).1 ∧
      ∀ x later, (countRun less list).2 = x :: later → ¬ NoDescent less (start ++ [x]) := by
  match list, replaces with
  | [], _ =>
      refine ⟨[], rfl, .of_noDescent List.isChain_nil, fun x later impossible => ?_⟩
      cases impossible
  | [a], _ =>
      refine ⟨[a], rfl, .of_noDescent (List.isChain_singleton a), fun x later impossible => ?_⟩
      cases impossible
  | a :: b :: rest, replaces =>
      rw [countRun]
      by_cases descends : less b a = true
      · have ends : descend less b rest = ([], rest) := by
          cases rest with
          | nil => rfl
          | cons y rest =>
              rw [descend, if_neg (by rw [replaces.last descends y]; exact Bool.false_ne_true)]
        have notChain : ∀ others : List α, ¬ NoDescent less (a :: b :: others) := by
          intro others chain
          have step := (List.isChain_cons_cons.mp chain).1
          rw [descends] at step
          cases step
        rw [if_pos descends, ends]
        refine ⟨[a, b], rfl, Or.inl ⟨?_, ?_⟩, fun x later _ => notChain [x]⟩
        · have joined : AllFound less ([a] ++ [b]) ↔ _ := allFound_concat
          refine joined.mpr ⟨allFound_of_settled (List.pairwise_singleton _ _),
            fun front c mid split replaced => ?_⟩
          obtain ⟨rfl, rfl, rfl⟩ : front = [] ∧ c = a ∧ mid = [] := by
            cases front with
            | nil => simpa [eq_comm] using split
            | cons first front => simp at split
          have single : 1 ∈ probed 1 := by
            rw [probed]
            exact List.mem_cons_self
          exact ⟨notChain [], single⟩
        · have placed : arranged less [a, b] = place less [a] b := rfl
          rw [placed, place_cons, if_pos descends]
          rfl
      · obtain ⟨chain, ends⟩ := ascend_chain less b rest
        have step : less b a = false := Bool.eq_false_iff.mpr descends
        rw [if_neg descends]
        refine ⟨a :: b :: (ascend less b rest).1, ?_,
          .of_noDescent (List.isChain_cons_cons.mpr ⟨step, chain⟩), fun x later same whole => ?_⟩
        · rw [List.cons_append, List.cons_append, ascend_append]
        · exact ends x later same (List.isChain_cons_cons.mp whole).2

/-- Binary insertion settles the elements exactly if it comes across all that are replaced. -/
theorem shortSort_settled_iff {list : List α} (replaces : Replaces less list) :
    Settled less (shortSort less list) ↔ AllFound less list := by
  obtain ⟨start, split, run, started⟩ := countRun_treated replaces
  have whole := run.foldl (split ▸ replaces) started
  rw [← split] at whole
  rcases whole with ⟨all, same⟩ | ⟨missed, unsettled⟩
  · refine iff_of_true ?_ all
    rw [shortSort, same]
    exact arranged_settled replaces
  · exact iff_of_false unsettled missed

end GnomeBuildMeta.Sorting
