import Mathlib.Data.List.Forall2
import Mathlib.Data.List.Infix
import Mathlib.Data.Nat.SuccPred
import Mathlib.Order.SuccPred.Archimedean
import ScalarLang.Scope
/-!
# Frames nest

A scope is used by calls in any order: frames are opened and dropped, names are bound, and questions are
asked. What a scope answers is said from the history of its calls alone, without a stack: which frames
are still live (`Live`), which call bound a name in which frame (`Sets`), and which of these was the last
one (`Last`). `frames_nest` says that the answers are those of the innermost live frame that binds the
name, and that calls between a push and its pop leave nothing behind.
-/
namespace ScalarLang

namespace Scope

variable {α : Type}

/-! ## Calls -/

/-- The calls that a scope answers. -/
inductive Call (α : Type) where
  | push
  | pop
  | set (id : String) (value : α)
  | get (id : String)
  | declared (id : String)
  deriving DecidableEq, Repr

/-- Whether a call opens a frame. -/
def Call.isPush : Call α → Bool
  | .push => true
  | _ => false

/-- Whether a call drops a frame. -/
def Call.isPop : Call α → Bool
  | .pop => true
  | _ => false

/-- The scope after a call. A question changes nothing. -/
def call (s : Scope α) : Call α → Scope α
  | .push => s.push
  | .pop => s.pop
  | .set id value => s.set id value
  | .get _ => s
  | .declared _ => s

/-- The scope that calls leave. -/
def after (s : Scope α) (calls : List (Call α)) : Scope α := calls.foldl call s

theorem after_append (s : Scope α) (calls calls' : List (Call α)) :
    s.after (calls ++ calls') = (s.after calls).after calls' := List.foldl_append

/-- How many calls open a frame. -/
def pushes (calls : List (Call α)) : Nat := calls.countP Call.isPush

/-- How many calls drop a frame. -/
def pops (calls : List (Call α)) : Nat := calls.countP Call.isPop

/-- The calls leave the frame that they find in its place: at no moment have they dropped more frames than
they have opened. -/
def Keeps (calls : List (Call α)) : Prop := ∀ front, front <+: calls → pops front ≤ pushes front

/-- They leave it innermost too: what they have opened they have dropped. -/
def Balanced (calls : List (Call α)) : Prop := Keeps calls ∧ pops calls = pushes calls

instance (calls : List (Call α)) : Decidable (Keeps calls) :=
  decidable_of_iff (∀ front ∈ calls.inits, pops front ≤ pushes front) (by simp only [List.mem_inits]; rfl)

instance (calls : List (Call α)) : Decidable (Balanced calls) :=
  inferInstanceAs (Decidable (_ ∧ _))

/-! ## What a history says

A frame is known by the number of calls that had been made when it was opened: `0` is the outermost one,
and `n + 1` the one that the call at `n` opened.
-/

/-- The frame has not been dropped. The outermost one never is. -/
def Live (calls : List (Call α)) : Nat → Prop
  | 0 => True
  | n + 1 => calls[n]? = some .push ∧ Keeps (calls.drop (n + 1))

instance [DecidableEq α] (calls : List (Call α)) : DecidablePred (Live calls)
  | 0 => .isTrue trivial
  | _ + 1 => inferInstanceAs (Decidable (_ ∧ _))

/-- The frame was the last to be opened of those that are live. -/
def Innermost (calls : List (Call α)) (n : Nat) : Prop := IsGreatest {k | Live calls k} n

/-- The call at `m` binds a name in the frame `n`, which was innermost then. -/
def Sets (calls : List (Call α)) (n : Nat) (id : String) (m : Nat) : Prop :=
  (∃ v, calls[m]? = some (.set id v)) ∧ Innermost (calls.take m) n

/-- Some call binds the name in the frame `n`. -/
def BindsIn (calls : List (Call α)) (n : Nat) (id : String) : Prop := ∃ m, Sets calls n id m

/-- The latest of the calls that bind a name in the frame `n` gives it the value `v`. -/
def Last (calls : List (Call α)) (n : Nat) (id : String) (v : α) : Prop :=
  ∃ m, IsGreatest {k | Sets calls n id k} m ∧ calls[m]? = some (.set id v)

/-! ## Calls within a frame -/

variable {calls : List (Call α)}

theorem pushes_append (calls calls' : List (Call α)) :
    pushes (calls ++ calls') = pushes calls + pushes calls' := List.countP_append

theorem pops_append (calls calls' : List (Call α)) :
    pops (calls ++ calls') = pops calls + pops calls' := List.countP_append

theorem pushes_push (calls : List (Call α)) : pushes (.push :: calls) = pushes calls + 1 :=
  List.countP_cons_of_pos rfl

theorem pops_push (calls : List (Call α)) : pops (.push :: calls) = pops calls :=
  List.countP_cons_of_neg Bool.false_ne_true

theorem keeps_nil : Keeps ([] : List (Call α)) := by
  intro front h
  rw [List.prefix_nil.1 h]
  exact Nat.le_refl 0

theorem Keeps.le (h : Keeps calls) : pops calls ≤ pushes calls := h calls List.prefix_rfl

theorem Keeps.of_append {calls' : List (Call α)} (h : Keeps (calls ++ calls')) : Keeps calls :=
  fun front hfront => h front (hfront.trans (List.prefix_append calls calls'))

theorem keeps_concat (calls : List (Call α)) (c : Call α) :
    Keeps (calls ++ [c]) ↔ Keeps calls ∧ pops (calls ++ [c]) ≤ pushes (calls ++ [c]) := by
  constructor
  · intro h
    exact ⟨h.of_append, h.le⟩
  · rintro ⟨h, hle⟩ front hfront
    rcases List.prefix_concat_iff.1 hfront with rfl | hfront
    · exact hle
    · exact h front hfront

/-- Only a pop can drop the frame, and only if it is innermost. -/
theorem keeps_concat_pop (calls : List (Call α)) :
    Keeps (calls ++ [.pop]) ↔ Keeps calls ∧ pops calls < pushes calls := by
  rw [keeps_concat, pops_append, pushes_append]
  rfl

theorem keeps_concat_of_ne {c : Call α} (hc : c ≠ .pop) : Keeps (calls ++ [c]) ↔ Keeps calls := by
  rw [keeps_concat, pops_append, pushes_append]
  have hpop : pops [c] = 0 := by
    cases c with
    | pop => exact absurd rfl hc
    | push | set | get | declared => rfl
  constructor
  · exact And.left
  · intro h
    have hle := h.le
    exact ⟨h, by omega⟩

/-- Calls that keep a frame do their work above it. -/
theorem exists_above_after (s : Scope α) (h : Keeps calls) :
    ∃ above, (s.push.after calls).enclosing = above ++ s.innermost :: s.enclosing ∧
      above.length + pops calls = pushes calls := by
  induction calls using List.reverseRecOn with
  | nil => exact ⟨[], rfl, rfl⟩
  | append_singleton calls c ih =>
    obtain ⟨above, hlist, hlen⟩ := ih h.of_append
    rw [after_append, pops_append, pushes_append]
    cases c with
    | push =>
      refine ⟨(s.push.after calls).innermost :: above, congrArg _ hlist, ?_⟩
      change above.length + 1 + pops calls = pushes calls + 1
      omega
    | pop =>
      have hlt := ((keeps_concat_pop calls).1 h).2
      cases above with
      | nil =>
        simp only [List.length_nil] at hlen
        omega
      | cons f above =>
        refine ⟨above, ?_, ?_⟩
        · change (s.push.after calls).pop.enclosing = _
          rw [pop, hlist]
          rfl
        · change above.length + (pops calls + 1) = pushes calls
          rw [List.length_cons] at hlen
          omega
    | set | get | declared => exact ⟨above, hlist, hlen⟩

theorem after_push_pop (s : Scope α) (h : Balanced calls) :
    s.after (.push :: calls ++ [.pop]) = s := by
  obtain ⟨above, hlist, hlen⟩ := exists_above_after s h.1
  have hnil : above = [] := by
    have hpops := h.2
    exact List.length_eq_zero_iff.1 (by omega)
  subst hnil
  rw [after_append]
  change (s.push.after calls).pop = s
  rw [pop, hlist]
  rfl

/-! ## Live frames -/

theorem Live.le_length {n : Nat} (h : Live calls n) : n ≤ calls.length := by
  cases n with
  | zero => exact Nat.zero_le _
  | succ n => exact (List.getElem?_eq_some_iff.1 h.1).1

theorem live_succ_iff {n : Nat} : Live calls (n + 1) ↔
    ∃ before since, calls = before ++ .push :: since ∧ before.length = n ∧ Keeps since := by
  constructor
  · rintro ⟨hpush, hkeeps⟩
    obtain ⟨hlt, hget⟩ := List.getElem?_eq_some_iff.1 hpush
    refine ⟨calls.take n, calls.drop (n + 1), ?_, List.length_take_of_le hlt.le, hkeeps⟩
    rw [← hget, ← List.drop_eq_getElem_cons hlt, List.take_append_drop]
  · rintro ⟨before, since, rfl, rfl, hkeeps⟩
    refine ⟨by simp, ?_⟩
    rwa [← List.singleton_append, ← List.append_assoc, List.drop_left' (by simp)]

/-- The frames above a given one are those that were opened since. -/
theorem exists_live_gt_iff (n : Nat) :
    (∃ k, n < k ∧ Live calls k) ↔ ∃ k, Live (calls.drop n) (k + 1) := by
  have hshift (k : Nat) : Live calls (n + k + 1) ↔ Live (calls.drop n) (k + 1) := by
    change _ ∧ _ ↔ _ ∧ _
    rw [List.getElem?_drop, List.drop_drop, Nat.add_assoc]
  constructor
  · rintro ⟨k, hk, h⟩
    obtain ⟨d, rfl⟩ := Nat.exists_eq_add_of_lt hk
    exact ⟨d, (hshift d).1 h⟩
  · rintro ⟨k, h⟩
    exact ⟨n + k + 1, by omega, (hshift k).2 h⟩

/-- Calls that keep a frame and open more frames than they drop leave one open above it. -/
theorem Keeps.exists_open (h : Keeps calls) (hlt : pops calls < pushes calls) :
    ∃ before since, calls = before ++ .push :: since ∧ Balanced before ∧ Keeps since := by
  induction calls using List.reverseRecOn with
  | nil => exact absurd hlt (Nat.lt_irrefl 0)
  | append_singleton calls c ih =>
    have hkeeps := h.of_append
    rcases hkeeps.le.lt_or_eq with hlt' | heq
    · obtain ⟨before, since, rfl, hbefore, hsince⟩ := ih hkeeps hlt'
      refine ⟨before, since ++ [c], by simp, hbefore, (keeps_concat since c).2 ⟨hsince, ?_⟩⟩
      -- what came before is even, so the surplus that is left was made since
      have heven := hbefore.2
      simp only [pops_append, pushes_append, pops_push, pushes_push] at hlt ⊢
      omega
    · cases c with
      | push => exact ⟨calls, [], rfl, ⟨hkeeps, heq⟩, keeps_nil⟩
      | pop | set | get | declared =>
        rw [pops_append, pushes_append, heq] at hlt
        exact absurd (Nat.lt_of_add_lt_add_left hlt) (Nat.not_lt_zero _)

theorem Keeps.exists_live_iff (h : Keeps calls) :
    (∃ n, Live calls (n + 1)) ↔ pops calls < pushes calls := by
  constructor
  · rintro ⟨n, hlive⟩
    obtain ⟨before, since, rfl, -, hsince⟩ := live_succ_iff.1 hlive
    have hle := h.of_append.le
    have hle' := hsince.le
    rw [pops_append, pushes_append, pops_push, pushes_push]
    omega
  · intro hlt
    obtain ⟨before, since, heq, -, hsince⟩ := h.exists_open hlt
    exact ⟨before.length, live_succ_iff.2 ⟨before, since, heq, rfl, hsince⟩⟩

/-- A frame is live after one more call if the calls since it was opened keep it, or if the call opens it. -/
theorem live_concat {n : Nat} (c : Call α) : Live (calls ++ [c]) (n + 1) ↔
    (calls[n]? = some .push ∧ Keeps (calls.drop (n + 1) ++ [c])) ∨ (n = calls.length ∧ c = .push) := by
  change _ ∧ _ ↔ _
  rcases Nat.lt_trichotomy n calls.length with hn | rfl | hn
  · rw [List.getElem?_append_left hn, List.drop_append_of_le_length hn]
    simp [hn.ne]
  · simp [keeps_nil]
  · have hle : (calls ++ [c]).length ≤ n := by
      rw [List.length_append]
      exact hn
    simp [List.getElem?_eq_none hle, List.getElem?_eq_none hn.le, hn.ne']

/-- A pop drops the innermost frame, unless it is the outermost one too. -/
theorem live_concat_pop {n : Nat} :
    Live (calls ++ [.pop]) n ↔ Live calls n ∧ (n = 0 ∨ ∃ k, n < k ∧ Live calls k) := by
  cases n with
  | zero => exact ⟨fun _ => ⟨trivial, .inl rfl⟩, fun _ => trivial⟩
  | succ n =>
    rw [live_concat, keeps_concat_pop, exists_live_gt_iff, ← and_assoc]
    constructor
    · rintro (⟨h, hlt⟩ | ⟨-, h⟩)
      · exact ⟨h, .inr (h.2.exists_live_iff.2 hlt)⟩
      · cases h
    · rintro ⟨h, hzero | habove⟩
      · cases hzero
      · exact .inl ⟨h, h.2.exists_live_iff.1 habove⟩

/-- Any other call leaves the live frames as they are, and a push opens one more. -/
theorem live_concat_of_ne {c : Call α} (hc : c ≠ .pop) {n : Nat} :
    Live (calls ++ [c]) n ↔ Live calls n ∨ (n = calls.length + 1 ∧ c = .push) := by
  cases n with
  | zero => exact ⟨fun _ => .inl trivial, fun _ => trivial⟩
  | succ n =>
    rw [live_concat, keeps_concat_of_ne hc, Nat.succ_inj]
    rfl

/-! ## Bindings -/

variable {n m : Nat} {id : String} {v : α} {c : Call α}

theorem Sets.lt_length (h : Sets calls n id m) : m < calls.length := by
  obtain ⟨⟨v, hv⟩, -⟩ := h
  exact (List.getElem?_eq_some_iff.1 hv).1

theorem BindsIn.le_length (h : BindsIn calls n id) : n ≤ calls.length := by
  obtain ⟨m, -, hn⟩ := h
  exact hn.1.le_length.trans (List.length_take_le' m calls)

theorem sets_concat : Sets (calls ++ [c]) n id m ↔
    Sets calls n id m ∨ (m = calls.length ∧ (∃ v, c = .set id v) ∧ Innermost calls n) := by
  unfold Sets
  rcases Nat.lt_trichotomy m calls.length with hm | rfl | hm
  · rw [List.getElem?_append_left hm, List.take_append_of_le_length hm.le]
    simp [hm.ne]
  · simp
  · have hle : (calls ++ [c]).length ≤ m := by
      rw [List.length_append]
      exact hm
    simp [List.getElem?_eq_none hle, List.getElem?_eq_none hm.le, hm.ne']

theorem bindsIn_iff_exists_last : BindsIn calls n id ↔ ∃ v, Last calls n id v := by
  constructor
  · intro h
    have hbounded : BddAbove {k | Sets calls n id k} := ⟨calls.length, fun k hk => hk.lt_length.le⟩
    obtain ⟨m, hm⟩ := hbounded.exists_isGreatest_of_nonempty h
    obtain ⟨v, hv⟩ := hm.1.1
    exact ⟨v, m, hm, hv⟩
  · rintro ⟨v, m, hm, -⟩
    exact ⟨m, hm.1⟩

/-- A call that does not bind the name in the frame leaves its last binding there. -/
theorem last_concat_of_not (h : ¬ ((∃ v, c = .set id v) ∧ Innermost calls n)) :
    Last (calls ++ [c]) n id v ↔ Last calls n id v := by
  have hsets : {k | Sets (calls ++ [c]) n id k} = {k | Sets calls n id k} := by
    ext k
    exact sets_concat.trans (or_iff_left fun hk => h hk.2)
  unfold Last
  rw [hsets]
  refine exists_congr fun m => and_congr_right fun hm => ?_
  rw [List.getElem?_append_left hm.1.lt_length]

/-- One that does is the last. -/
theorem last_concat_set {u : α} (h : Innermost calls n) :
    Last (calls ++ [.set id u]) n id v ↔ u = v := by
  have hlast : IsGreatest {k | Sets (calls ++ [.set id u]) n id k} calls.length := by
    refine ⟨sets_concat.2 (.inr ⟨rfl, ⟨u, rfl⟩, h⟩), fun k hk => ?_⟩
    have hlt := hk.lt_length
    rw [List.length_append, List.length_singleton] at hlt
    omega
  constructor
  · rintro ⟨m, hm, hv⟩
    rw [hm.unique hlast, List.getElem?_concat_length] at hv
    cases hv
    rfl
  · rintro rfl
    exact ⟨calls.length, hlast, List.getElem?_concat_length⟩

/-! ## What a scope holds -/

/-- A frame has the last bindings that were made in it. -/
def Holds (calls : List (Call α)) (n : Nat) (f : Frame α) : Prop :=
  ∀ id v, f.lookup id = some v ↔ Last calls n id v

/-- The frames of a scope are those that its history leaves live, the innermost first. -/
structure Stands (calls : List (Call α)) (frames : List Nat) (s : Scope α) : Prop where
  live : ∀ n, n ∈ frames ↔ Live calls n
  order : frames.Pairwise (· > ·)
  holds : List.Forall₂ (Holds calls) frames (s.innermost :: s.enclosing)

theorem Holds.concat {f : Frame α} (h : Holds calls n f)
    (hc : ∀ id, ¬ ((∃ v, c = .set id v) ∧ Innermost calls n)) : Holds (calls ++ [c]) n f :=
  fun id v => (h id v).trans (last_concat_of_not (hc id)).symm

theorem Holds.concat_of_ne {f : Frame α} (h : Holds calls n f) (hc : ∀ id v, c ≠ .set id v) :
    Holds (calls ++ [c]) n f := by
  apply h.concat
  rintro id ⟨⟨v, hv⟩, -⟩
  exact hc id v hv

theorem Holds.set {f : Frame α} (h : Holds calls n f) (hn : Innermost calls n) (id : String) (v : α) :
    Holds (calls ++ [.set id v]) n ((id, v) :: f) := by
  intro id' u
  by_cases hid : id' = id
  · subst hid
    rw [List.lookup_cons_self, Option.some_inj, last_concat_set hn]
  · have hne : (id' == id) = false := beq_false_of_ne hid
    have hother : ¬ ((∃ w, Call.set id v = .set id' w) ∧ Innermost calls n) := by
      rintro ⟨⟨w, hw⟩, -⟩
      cases hw
      exact hid rfl
    rw [List.lookup_cons, hne, last_concat_of_not hother]
    exact h id' u

/-- A frame of which the history does not speak is empty. -/
theorem holds_nil (h : ∀ id, ¬ BindsIn calls n id) : Holds calls n [] := by
  intro id v
  constructor
  · intro hv
    cases hv
  · intro hlast
    exact absurd (bindsIn_iff_exists_last.2 ⟨v, hlast⟩) (h id)

theorem Holds.isSome_iff {f : Frame α} (h : Holds calls n f) :
    (f.lookup id).isSome = true ↔ BindsIn calls n id := by
  rw [Option.isSome_iff_exists, bindsIn_iff_exists_last]
  exact exists_congr (h id)

theorem le_of_mem_cons {frames : List Nat} {k : Nat} (h : (n :: frames).Pairwise (· > ·))
    (hk : k ∈ n :: frames) : k ≤ n := by
  rcases List.mem_cons.1 hk with rfl | hk
  · exact Nat.le_refl k
  · exact (List.rel_of_pairwise_cons h hk).le

namespace Stands

variable {frames : List Nat} {s : Scope α}

theorem innermost (h : Stands calls (n :: frames) s) : Innermost calls n :=
  ⟨(h.live n).1 List.mem_cons_self, fun k hk => le_of_mem_cons h.order ((h.live k).2 hk)⟩

theorem push (h : Stands calls frames s) :
    Stands (calls ++ [.push]) ((calls.length + 1) :: frames) s.push where
  live n := by
    rw [live_concat_of_ne (by simp), List.mem_cons, h.live, or_comm]
    simp
  order := List.pairwise_cons.2 ⟨fun k hk => Nat.lt_succ_of_le ((h.live k).1 hk).le_length, h.order⟩
  holds := by
    have hnew : Holds calls (calls.length + 1) [] :=
      holds_nil fun id hbinds => Nat.not_succ_le_self _ hbinds.le_length
    exact .cons (hnew.concat_of_ne (by simp)) (h.holds.imp fun n f hf => hf.concat_of_ne (by simp))

/-- The innermost frame goes, if there is another one. -/
theorem pop (h : Stands calls frames s) : ∃ frames', Stands (calls ++ [.pop]) frames' s.pop := by
  have hkept (n : Nat) (f : Frame α) (hf : Holds calls n f) : Holds (calls ++ [.pop]) n f :=
    hf.concat_of_ne (by simp)
  have hzero : 0 ∈ frames := (h.live 0).2 trivial
  obtain ⟨f, fs⟩ := s
  obtain _ | @⟨n, _, frames, _, hf, hfs⟩ := h.holds
  have hmax := h.innermost
  cases hfs with
  | nil =>
    refine ⟨[n], ⟨fun k => ?_, List.pairwise_singleton _ _, .cons (hkept n f hf) .nil⟩⟩
    obtain rfl : 0 = n := List.mem_singleton.1 hzero
    rw [live_concat_pop, ← h.live k, List.mem_singleton]
    exact ⟨fun hk => ⟨hk, .inl hk⟩, And.left⟩
  | @cons n' g frames fs hg hfs =>
    have hlt (k : Nat) (hk : k ∈ n' :: frames) : k < n := List.rel_of_pairwise_cons h.order hk
    refine ⟨n' :: frames, ⟨fun k => ?_, h.order.of_cons, .cons (hkept n' g hg) (hfs.imp hkept)⟩⟩
    rw [live_concat_pop]
    constructor
    · intro hk
      exact ⟨(h.live k).1 (List.mem_cons_of_mem n hk), .inr ⟨n, hlt k hk, hmax.1⟩⟩
    · rintro ⟨hk, habove⟩
      refine (List.mem_cons.1 ((h.live k).2 hk)).resolve_left ?_
      rintro rfl
      rcases habove with rfl | ⟨k', hk', hlive⟩
      · exact Nat.not_lt_zero n' (hlt n' List.mem_cons_self)
      · exact Nat.not_lt.2 (hmax.2 hlive) hk'

theorem set (h : Stands calls frames s) (id : String) (v : α) :
    Stands (calls ++ [.set id v]) frames (s.set id v) where
  live n := by
    rw [live_concat_of_ne (by simp), h.live]
    simp
  order := h.order
  holds := by
    obtain ⟨f, fs⟩ := s
    obtain _ | @⟨n, _, frames, _, hf, hfs⟩ := h.holds
    have hmax := h.innermost
    have hbelow : ∀ k ∈ frames, ¬ Innermost calls k := by
      intro k hk hk'
      exact Nat.ne_of_lt (List.rel_of_pairwise_cons h.order hk) (hk'.unique hmax)
    refine .cons (hf.set hmax id v) (((List.forall₂_and_left _ _).2 ⟨hbelow, hfs⟩).imp fun k g hg => ?_)
    exact hg.2.concat fun id hset => hg.1 hset.2

theorem question (h : Stands calls frames s) (hpush : c ≠ .push) (hpop : c ≠ .pop)
    (hset : ∀ id v, c ≠ .set id v) : Stands (calls ++ [c]) frames s where
  live n := by
    rw [live_concat_of_ne hpop, h.live]
    simp [hpush]
  order := h.order
  holds := h.holds.imp fun n f hf => hf.concat_of_ne hset

/-- What one call does. -/
theorem call (h : Stands calls frames s) (c : Call α) :
    ∃ frames', Stands (calls ++ [c]) frames' (s.call c) := by
  cases c with
  | push => exact ⟨_, h.push⟩
  | pop => exact h.pop
  | set id v => exact ⟨frames, h.set id v⟩
  | get id => exact ⟨frames, h.question (by simp) (by simp) (by simp)⟩
  | declared id => exact ⟨frames, h.question (by simp) (by simp) (by simp)⟩

end Stands

/-- What all calls come to. -/
theorem exists_stands_after (calls : List (Call α)) :
    ∃ frames, Stands calls frames (empty.after calls) := by
  induction calls using List.reverseRecOn with
  | nil =>
    refine ⟨[0], ⟨fun n => ?_, List.pairwise_singleton _ _, .cons (holds_nil ?_) .nil⟩⟩
    · cases n <;> simp [Live]
    · rintro id ⟨m, hm⟩
      exact absurd hm.lt_length (Nat.not_lt_zero m)
  | append_singleton calls c ih =>
    obtain ⟨frames, h⟩ := ih
    rw [after_append]
    exact h.call c

/-! ## Answers -/

/-- A search from the innermost frame outwards ends in the innermost frame that binds the name. -/
theorem findSome?_lookup_iff {frames : List Nat} {fs : List (Frame α)}
    (hfs : List.Forall₂ (Holds calls) frames fs) (horder : frames.Pairwise (· > ·)) :
    fs.findSome? (·.lookup id) = some v ↔
      ∃ n, IsGreatest {k | k ∈ frames ∧ BindsIn calls k id} n ∧ Last calls n id v := by
  induction hfs with
  | nil => simp [IsGreatest]
  | @cons n f frames fs hf hfs ih =>
    rw [List.findSome?_cons]
    cases hlook : f.lookup id with
    | some u =>
      have hbinds : BindsIn calls n id := hf.isSome_iff.1 (by rw [hlook]; rfl)
      have hmax : IsGreatest {k | k ∈ n :: frames ∧ BindsIn calls k id} n :=
        ⟨⟨List.mem_cons_self, hbinds⟩, fun k hk => le_of_mem_cons horder hk.1⟩
      change some u = some v ↔ _
      rw [← hlook, hf id v]
      constructor
      · exact fun hlast => ⟨n, hmax, hlast⟩
      · rintro ⟨k, hk, hlast⟩
        exact hk.unique hmax ▸ hlast
    | none =>
      have hunbound : ¬ BindsIn calls n id := by
        rw [← hf.isSome_iff, hlook]
        exact Bool.false_ne_true
      have hset : {k | k ∈ n :: frames ∧ BindsIn calls k id} = {k | k ∈ frames ∧ BindsIn calls k id} := by
        ext k
        refine and_congr_left fun hk => ?_
        rw [List.mem_cons, or_iff_right]
        rintro rfl
        exact hunbound hk
      rw [hset]
      exact ih horder.of_cons

theorem get?_after_iff (calls : List (Call α)) (id : String) (v : α) :
    (empty.after calls).get? id = some v ↔
      ∃ n, IsGreatest {k | Live calls k ∧ BindsIn calls k id} n ∧ Last calls n id v := by
  obtain ⟨frames, h⟩ := exists_stands_after calls
  simp only [← h.live]
  exact findSome?_lookup_iff h.holds h.order

theorem isSome_get?_after_iff (calls : List (Call α)) (id : String) :
    ((empty.after calls).get? id).isSome = true ↔ ∃ n, Live calls n ∧ BindsIn calls n id := by
  rw [Option.isSome_iff_exists]
  simp only [get?_after_iff]
  constructor
  · rintro ⟨v, n, hn, -⟩
    exact ⟨n, hn.1⟩
  · intro h
    have hbounded : BddAbove {k | Live calls k ∧ BindsIn calls k id} :=
      ⟨calls.length, fun k hk => hk.1.le_length⟩
    obtain ⟨n, hn⟩ := hbounded.exists_isGreatest_of_nonempty h
    obtain ⟨v, hv⟩ := bindsIn_iff_exists_last.1 hn.1.2
    exact ⟨v, n, hn, hv⟩

theorem declares_after_iff (calls : List (Call α)) (id : String) :
    (empty.after calls).declares id = true ↔ ∃ n, Innermost calls n ∧ BindsIn calls n id := by
  obtain ⟨frames, h⟩ := exists_stands_after calls
  obtain _ | @⟨n, _, frames, _, hf, -⟩ := h.holds
  rw [declares, hf.isSome_iff]
  constructor
  · exact fun hbinds => ⟨n, h.innermost, hbinds⟩
  · rintro ⟨k, hk, hbinds⟩
    exact hk.unique h.innermost ▸ hbinds

theorem after_pop_of_innermost_zero (h : Innermost calls 0) :
    empty.after (calls ++ [.pop]) = empty.after calls := by
  obtain ⟨frames, hstands⟩ := exists_stands_after calls
  rw [after_append]
  change (empty.after calls).pop = empty.after calls
  cases hs : empty.after calls with
  | mk f fs =>
    rw [hs] at hstands
    obtain _ | @⟨n, _, frames, _, -, hfs⟩ := hstands.holds
    cases hfs with
    | nil => rfl
    | @cons n' _ _ _ _ _ =>
      have hlt : n' < n := List.rel_of_pairwise_cons hstands.order List.mem_cons_self
      rw [hstands.innermost.unique h] at hlt
      exact absurd hlt (Nat.not_lt_zero n')

theorem after_sets (s : Scope α) (f : Frame α) :
    s.after (f.reverse.map fun b => .set b.1 b.2) = ⟨f ++ s.innermost, s.enclosing⟩ := by
  induction f with
  | nil => rfl
  | cons b f ih =>
    rw [List.reverse_cons, List.map_append, after_append, ih]
    rfl

/-- Every scope has a history. -/
theorem exists_after_empty (s : Scope α) : ∃ calls, empty.after calls = s := by
  obtain ⟨f, fs⟩ := s
  induction fs generalizing f with
  | nil => exact ⟨_, (after_sets empty f).trans (by rw [empty, List.append_nil])⟩
  | cons g fs ih =>
    obtain ⟨calls, h⟩ := ih g
    refine ⟨calls ++ .push :: f.reverse.map fun b => .set b.1 b.2, ?_⟩
    rw [after_append, h]
    exact (after_sets (push ⟨g, fs⟩) f).trans (by rw [push, List.append_nil])

/-- Calls that drop what they open leave no trace between a push and its pop, in whatever scope they are
made: every later answer is what it would have been. At any moment of any history, and each scope has one,
a name has the value of its latest binding in the innermost of the live frames that bind it, if there are
any; it is declared if that is the innermost frame of all; and a pop removes nothing when no frame but the
outermost one is live. -/
theorem frames_nest (α : Type) :
    (∀ (s : Scope α) (calls : List (Call α)), Balanced calls → ∀ later id,
      (s.after (.push :: calls ++ .pop :: later)).get? id = (s.after later).get? id ∧
      (s.after (.push :: calls ++ .pop :: later)).declares id = (s.after later).declares id) ∧
    (∀ s : Scope α, ∃ calls, empty.after calls = s) ∧
    ∀ calls : List (Call α),
      (∀ id v, (empty.after calls).get? id = some v ↔
        ∃ n, IsGreatest {k | Live calls k ∧ BindsIn calls k id} n ∧ Last calls n id v) ∧
      (∀ id, ((empty.after calls).get? id).isSome = true ↔ ∃ n, Live calls n ∧ BindsIn calls n id) ∧
      (∀ id, (empty.after calls).declares id = true ↔ ∃ n, Innermost calls n ∧ BindsIn calls n id) ∧
      (Innermost calls 0 → empty.after (calls ++ [.pop]) = empty.after calls) := by
  refine ⟨?_, exists_after_empty, ?_⟩
  · intro s calls h later id
    have hafter : s.after (.push :: calls ++ .pop :: later) = s.after later := by
      rw [List.append_cons, after_append, after_push_pop s h]
    rw [hafter]
    exact ⟨rfl, rfl⟩
  · intro calls
    exact ⟨get?_after_iff calls, isSome_get?_after_iff calls, declares_after_iff calls,
      after_pop_of_innermost_zero⟩

/-- A pop too many, a name bound twice in an inner frame, and a frame above that has come and gone. -/
def shadowing : List (Call Nat) :=
  [.set "x" 1, .pop, .set "y" 2, .push, .set "x" 3, .set "x" 4, .push, .set "x" 5, .pop, .get "y"]

theorem frames_nest_shadowing :
    (Balanced (shadowing.drop 4) ∧
      ((empty.after (shadowing ++ [.pop])).get? "x" = some 1 ∧
        (empty.after (shadowing ++ [.pop])).get? "x" = (empty.after (shadowing.take 3)).get? "x")) ∧
    ((empty.after shadowing).get? "x" = some 4 ∧
      ∃ n, IsGreatest {k | Live shadowing k ∧ BindsIn shadowing k "x"} n ∧ Last shadowing n "x" 4) ∧
    (Innermost (shadowing.take 3) 0 ∧
      empty.after (shadowing.take 3 ++ [.pop]) = empty.after (shadowing.take 3)) := by
  obtain ⟨hnest, -, hmoment⟩ := frames_nest Nat
  have hbalanced : Balanced (shadowing.drop 4) := by decide
  have hx : (empty.after shadowing).get? "x" = some 4 := by decide
  have houter : Innermost (shadowing.take 3) 0 := by
    have hclosed : ∀ k ≤ 3, Live (shadowing.take 3) k → k ≤ 0 := by decide
    exact ⟨trivial, fun k hk => hclosed k hk.le_length hk⟩
  refine ⟨⟨hbalanced, by decide, ?_⟩, ⟨hx, ((hmoment shadowing).1 "x" 4).1 hx⟩,
    houter, (hmoment (shadowing.take 3)).2.2.2 houter⟩
  exact (hnest (empty.after (shadowing.take 3)) (shadowing.drop 4) hbalanced [] "x").1

end Scope

end ScalarLang
