import ScalarLang.Proofs.Recovery
import ScalarLang.Proofs.StreamErrors
import ScalarLang.Proofs.Unfinished
/-!
# Behind the last boundary

An error that stands at the end of a stream is met in an item or on the way to the next one. It is met on
that way only if an item has failed behind the last boundary, for a boundary is where reading goes on. So
it is told, unless it stands after a name, exactly if what comes from the last boundary on is wrong, if
at all, because the input ends (`mem_results_iff`).
-/
namespace ScalarLang

variable {ε : Type}

/-! ## The last boundary -/

/-- Whether an answer is a boundary of items. -/
def isBoundaryAnswer : Except ε Token → Bool
  | .ok t => t.isBoundary
  | .error _ => false

/-- What a stream answers from its last boundary on, or all of it if there is none. -/
def fromLastBoundary : List (Except ε Token) → List (Except ε Token)
  | [] => []
  | a :: rest => if rest.any isBoundaryAnswer then fromLastBoundary rest else a :: rest

theorem any_isBoundaryAnswer_iff {A : List (Except ε Token)} :
    A.any isBoundaryAnswer = true ↔ ∃ t : Token, .ok t ∈ A ∧ t.isBoundary = true := by
  rw [List.any_eq_true]
  constructor
  · rintro ⟨a, ha, hb⟩
    cases a with
    | error e => cases hb
    | ok t => exact ⟨t, ha, hb⟩
  · rintro ⟨t, ht, hb⟩
    exact ⟨.ok t, ht, hb⟩

theorem fromLastBoundary_cases (A : List (Except ε Token)) : ∃ front, A = front ++ fromLastBoundary A ∧
    (front = [] ∨ ∃ b tail, fromLastBoundary A = .ok b :: tail ∧ b.isBoundary = true) ∧
    ∀ t, .ok t ∈ (fromLastBoundary A).tail → t.isBoundary = false := by
  induction A with
  | nil => exact ⟨[], rfl, .inl rfl, by simp [fromLastBoundary]⟩
  | cons a rest ih =>
    unfold fromLastBoundary
    split
    · rename_i hany
      obtain ⟨t, ht, hb⟩ := any_isBoundaryAnswer_iff.1 hany
      obtain ⟨front, hrest, hfront, htail⟩ := ih
      refine ⟨a :: front, by rw [List.cons_append, ← hrest], .inr ?_, htail⟩
      rcases hfront with rfl | hfront
      · -- only the first of them can be the boundary that is there
        rw [List.nil_append] at hrest
        rw [← hrest] at htail ⊢
        cases rest with
        | nil => cases ht
        | cons r rest =>
          rcases List.mem_cons.1 ht with rfl | ht
          · exact ⟨t, rest, rfl, hb⟩
          · rw [htail t ht] at hb
            cases hb
      · exact hfront
    · rename_i hany
      refine ⟨[], rfl, .inl rfl, fun t ht => ?_⟩
      rw [any_isBoundaryAnswer_iff] at hany
      exact Bool.eq_false_iff.2 fun hb => hany ⟨t, ht, hb⟩

namespace Cursor

/-- No boundary is left to be read but the end of input. -/
structure Unbounded (c : Cursor ε) : Prop where
  coming : ∀ t, .ok t ∈ c.coming → t.isBoundary = false
  lookahead : ∀ t, c.lookahead = some t → t.isBoundary = true → t.isEnd = true

/-- No boundary comes after the next answer. -/
def AtLast (c : Cursor ε) : Prop := ∀ t, .ok t ∈ c.peek.2.coming → t.isBoundary = false

variable {c : Cursor ε}

theorem AtLast.coming {c' : Cursor ε} {r : Except ε Token} (hc : c.AtLast) (hp : c.peek = (r, c')) :
    ∀ t, .ok t ∈ c'.coming → t.isBoundary = false := by
  unfold AtLast at hc
  rwa [hp] at hc

theorem Unbounded.skip (hc : c.Unbounded) : c.skip.Unbounded := ⟨hc.coming, by simp [Cursor.skip]⟩

theorem Unbounded.peek (hc : c.Unbounded) : c.peek.2.Unbounded := by
  obtain ⟨l, cs, p⟩ := c
  rcases l with _ | u
  · rcases cs with _ | ⟨e | u, cs⟩
    · exact ⟨by simp [Cursor.peek], by simp [Cursor.peek, Token.isEnd]⟩
    · exact ⟨fun t ht => hc.coming t (List.mem_cons_of_mem _ ht), by simp [Cursor.peek]⟩
    · have hu := hc.coming u (List.mem_cons_self ..)
      exact ⟨fun t ht => hc.coming t (List.mem_cons_of_mem _ ht), by simp [Cursor.peek, hu]⟩
  · exact hc

theorem Unbounded.atLast (hc : c.Unbounded) : c.AtLast := hc.peek.coming

theorem lookahead_peek_error {c' : Cursor ε} {e : ε} (h : c.peek = (.error e, c')) :
    c'.lookahead = none := by
  obtain ⟨l, cs, p⟩ := c
  rcases l with _ | t
  · rcases cs with _ | ⟨_ | t, cs⟩ <;> cases h
    rfl
  · cases h

/-- An error at the end is no boundary. -/
theorem AtLast.followed (hc : c.AtLast) (e : ε) (p : Position) : (c.followed [.error e] p).AtLast := by
  obtain ⟨l, cs, q⟩ := c
  have hend {cs : List (Except ε Token)} (hcs : ∀ t, .ok t ∈ cs → t.isBoundary = false) :
      ∀ t, .ok t ∈ cs ++ [.error e] → t.isBoundary = false := by
    intro t ht
    simp only [List.mem_append, List.mem_singleton, reduceCtorEq, or_false] at ht
    exact hcs t ht
  rcases l with _ | u
  · rcases cs with _ | ⟨_ | u, cs⟩
    · exact nofun
    · exact hend hc
    · exact hend hc
  · exact hend hc

end Cursor

namespace Reading

/-- A cursor without boundaries, related to itself. -/
def Unbound (c d : Cursor ε) : Prop := c = d ∧ c.Unbounded

theorem looks_unbounded {c : Cursor ε} (h : c.Unbounded) :
    Looks Unbound Eq (Eq : Failure ε → Failure ε → Prop) c.peek c.peek := by
  have hpeek := h.peek
  rcases hp : c.peek with ⟨e | t, c'⟩ <;> rw [hp] at hpeek
  · exact .error rfl ⟨rfl, hpeek⟩
  · exact .token rfl ⟨rfl, hpeek⟩ fun _ => ⟨rfl, hpeek.skip⟩

theorem lockstep_unbounded : Lockstep Unbound Eq Eq (Eq : Failure ε → Failure ε → Prop) :=
  .of_eq (by rintro c d ⟨rfl, h⟩; exact looks_unbounded h) fun _ => rfl

/-- A look at the last boundary, or behind it, leaves no boundary to come. -/
theorem look_atLast {c c' : Cursor ε} {t : Token} (h : c.AtLast) (hl : look c = .ok t c') :
    c'.skip.Unbounded ∧ (t.isBoundary = false ∨ t.isEnd = true → c'.Unbounded) := by
  have hp := peek_of_look hl
  have hcoming := h.coming hp
  refine ⟨⟨hcoming, by simp [Cursor.skip]⟩, fun ht => ⟨hcoming, ?_⟩⟩
  rw [Cursor.lookahead_peek hp]
  rintro u ⟨⟩ hb
  rcases ht with ht | ht
  · rw [hb] at ht
    cases ht
  · exact ht

/-- An item takes the boundary that it starts with, and puts back no other. -/
theorem alike_item_atLast {c : Cursor ε} (h : c.AtLast) :
    Alike Unbound Eq (Option.Rel (Items Eq Eq)) (item c) (item c) := by
  rcases hp : c.peek with ⟨e | t, c'⟩
  · rw [item_of_look_error (look_of_peek_error hp)]
    refine .error rfl ⟨rfl, h.coming hp, ?_⟩
    rw [Cursor.lookahead_peek_error hp]
    exact nofun
  · have hl := look_of_peek hp
    obtain ⟨hskip, hkeep⟩ := look_atLast h hl
    cases he : t.isEnd with
    | true =>
      rw [item_of_look_end hl he]
      exact .ok .none ⟨rfl, hkeep (.inr he)⟩
    | false =>
      rw [item_of_look hl he]
      split
      · exact (lockstep_unbounded.aligned fun h => ⟨by rw [h.1], h.2.skip⟩).alike_item ⟨rfl, hskip⟩
      · rename_i hs
        have hlook := Cursor.lookahead_peek hp
        refine (lockstep_unbounded.alike_itemFrom (T := Eq) rfl hlook hlook (fun hd hx => ?_) ⟨rfl, hskip⟩).bind
          fun i j c₁ d₁ _ hij hr => .ok (.some hij) hr
        exact ⟨rfl, hkeep (.inl (by simp [Token.isBoundary, he, hs, hd, hx]))⟩

/-- Without a boundary, synchronizing goes to the end. -/
theorem results_synchronize {c : Cursor ε} (h : c.Unbounded) :
    Parse.results (Parse.synchronize c) = [] := by
  have hpeek := h.peek
  rw [synchronize_eq]
  rcases hp : c.peek with ⟨e | t, c'⟩ <;> rw [hp] at hpeek
  · have hl := look_of_peek_error hp
    have := size_look_error_lt hl
    simp only [hl]
    exact results_synchronize hpeek
  · have hl := look_of_peek hp
    have hlook := Cursor.lookahead_peek hp
    simp only [hl]
    cases he : t.isEnd with
    | true => rw [if_pos (by simp), results_eq, item_of_look_end (look_of_lookahead hlook) he]
    | false =>
      have := size_skip_look_lt hl he
      have hnone : t.isBoundary = false := by
        refine Bool.eq_false_iff.2 fun hb => ?_
        rw [hpeek.lookahead t hlook hb] at he
        cases he
      simp only [Token.isBoundary, Bool.or_eq_false_iff, decide_eq_false_iff_not] at hnone
      rw [if_neg (by simp [hnone]), if_neg hnone.1.1.2]
      exact results_synchronize hpeek.skip
termination_by c.size

/-- An item that fails at the last boundary, or behind it, is the last one, for there is no boundary to go
on at. -/
theorem results_of_item_error {c d : Cursor ε} {f : Failure ε} (hc : c.AtLast) (h : item c = .error f d) :
    Parse.results c = [.error f] := by
  have halike := alike_item_atLast hc
  rw [h] at halike
  obtain ⟨-, -, -, -, -, hunbounded⟩ := halike.of_error
  rw [results_eq, h]
  simp only [results_synchronize hunbounded]

/-! ## A failure behind the last boundary -/

section Told

variable {front given : List (Except ε Token)} {c : Cursor ε} {e : ε} {p : Position}

/-- Without the error, the cursor stands at the same place of a stream that ends before it. -/
theorem reached_of_followed (hc : (c.followed [.error e] p).Reached (front ++ [.error e]) given given) :
    c.Reached front given given := by
  refine .start ?_ fun t ht => .inl ?_
  · have hplace := hc.place
    rw [Cursor.followed, ← List.append_assoc] at hplace
    exact List.append_inj_left' hplace rfl
  · rcases hc.held t ht with hlast | ⟨-, hnil⟩
    · exact hlast
    · simp [Cursor.followed] at hnil

/-- An item that has looked at the end tells an error that stands there. -/
theorem told_of_spent (hname : ¬ EndsInName front)
    (hc : (c.followed [.error e] p).Reached (front ++ [.error e]) given given)
    (hspent : Spent (item (c.followed [.error e] p))) :
    ∃ d, item (c.followed [.error e] p) = .error (.stream e) d := by
  have hgiven : given <+: front := ⟨c.coming, (reached_of_followed hc).place.symm⟩
  have hmet {d : Cursor ε} {given' : List (Except ε Token)}
      (hd : d.Reached (front ++ [.error e]) given given') (hnil : d.coming = []) : False := by
    refine hname (hd.passed front e hgiven ?_)
    rw [hd.place, hnil, List.append_nil]
  have htells := tells_item hc
  generalize hr : item (c.followed [.error e] p) = r at htells hspent
  cases htells with
  | ok hd =>
    cases hspent with
    | ok hnil => exact (hmet hd hnil.coming_nil).elim
  | error hd =>
    cases hspent with
    | error hnil => exact (hmet hd hnil).elim
  | @told e' cs q given' hd =>
    cases hspent with
    | error hnil =>
      have hnil : cs = [] := hnil
      subst hnil
      cases List.append_inj_right' hd.place rfl
      exact ⟨_, rfl⟩

/-- Behind the last boundary, the error at the end is told exactly if nothing else is wrong than that the
input ends there. -/
theorem told_iff {c : Cursor ε} {given : List (Except ε Token)} (hopen : c.Open) (hlast : c.AtLast)
    (hname : ¬ EndsInName front) (hfresh : .error e ∉ front)
    (hc : (c.followed [.error e] p).Reached (front ++ [.error e]) given given) :
    .error (.stream e) ∈ Parse.results (c.followed [.error e] p) ↔
      ∀ f, .error f ∈ Parse.results c → f.isEnd = true := by
  cases completes_item hopen with
  | @ok i c' h hopen' hmore =>
    cases i with
    | none =>
      obtain ⟨t, ht, he⟩ := lookahead_item_none h
      rw [hopen'.lookahead t ht] at he
      cases he
    | some i =>
      have hlt := size_item_lt h
      have halike := alike_item_atLast hlast
      rw [h] at halike
      obtain ⟨-, -, -, -, -, hunbounded⟩ := halike.of_ok
      have htells := tells_item hc
      rw [hmore] at htells
      generalize hd : c'.followed [.error e] p = d at htells
      cases htells with
      | ok hc' =>
        subst hd
        have ih := told_iff hopen' hunbounded.atLast hname hfresh hc'.restart
        rw [results_eq, hmore, results_eq c, h]
        simpa using ih
  | @error f c' h hend hmore =>
    obtain ⟨d, hd⟩ := hmore [.error e] p
    rw [results_of_item_error hlast h, results_of_item_error (hlast.followed e p) hd]
    have htells := tells_item (reached_of_followed hc)
    rw [h] at htells
    have hne : f ≠ .stream e := by
      rintro rfl
      cases htells with
      | told hd => exact hfresh (by simp [hd.place])
    simp [hend, Ne.symm hne]
  | @ended ws h hmore hspent =>
    obtain ⟨d, hd⟩ := told_of_spent hname hc (hspent e p)
    rw [results_of_item_error (hlast.followed e p) hd]
    generalize hitem : item c = r at h
    cases h with
    | @ok i c' hc' =>
      have hnil : Parse.results c' = [] := by
        obtain ⟨t, c₁, hl, ht, -, -⟩ := hc'.look
        rw [results_eq, item_of_look_end hl ht]
      rw [results_eq, hitem]
      cases i <;> simp [hnil]
    | error _ hf _ =>
      rw [results_of_item_error hlast hitem]
      simp [hf]
termination_by c.size

end Told

/-- The error at the end of a stream is told exactly if what comes from the last boundary on is wrong, if
at all, because the input ends. -/
theorem mem_results_iff {A : List (Except ε Token)} {e : ε} (hA : ∀ t, .ok t ∈ A → t.isEnd = false)
    (hname : ¬ EndsInName A) (hfresh : .error e ∉ A) (p : Position) :
    .error (.stream e) ∈ Parse.results (.ofStream ⟨A ++ [.error e], p⟩) ↔
      ∀ f, .error f ∈ Parse.results (.ofStream ⟨fromLastBoundary A, p⟩) → f.isEnd = true := by
  obtain ⟨front, hsplit, hfront, htail⟩ := fromLastBoundary_cases A
  generalize fromLastBoundary A = last at *
  subst hsplit
  have htold : .error (.stream e) ∈ Parse.results ⟨none, last ++ [.error e], p⟩ ↔
      ∀ f, .error f ∈ Parse.results ⟨none, last, p⟩ → f.isEnd = true := by
    have hstart : ((⟨none, last, p⟩ : Cursor ε).followed [.error e] p).Reached (last ++ [.error e]) [] [] :=
      .start rfl (by simp [Cursor.followed])
    refine told_iff ⟨fun t ht => hA t (by simp [ht]), by simp⟩ ?_ (fun h => hname (h.append_left front))
      (fun h => hfresh (by simp [h])) hstart
    cases last with
    | nil => simp [Cursor.AtLast, Cursor.peek]
    | cons a last => cases a <;> exact htail
  rcases hfront with rfl | ⟨b, tail, rfl, hb⟩
  · exact htold
  · have he := hA b (by simp)
    obtain ⟨before, hresults⟩ := results_before_boundary (A := front) (fun t ht => hA t (by simp [ht])) hb he
    have hbefore (more : List (Except ε Token)) : Parse.results (.ofStream ⟨front ++ .ok b :: more, p⟩) =
        before ++ Parse.results ⟨none, .ok b :: more, p⟩ := hresults more p
    -- what comes before the last boundary has no part in the error
    have hother : .error (.stream e) ∉ before := by
      intro hmem
      have hall : .error (.stream e) ∈ Parse.results (.ofStream ⟨front ++ .ok b :: tail, p⟩) := by
        rw [hbefore]
        exact List.mem_append_left _ hmem
      rcases Parse.failure_of_mem_results hall with ⟨g, hg⟩ | ⟨e', he', hmem'⟩
      · cases hg
      · cases he'
        exact hfresh hmem'
    rw [List.append_assoc, List.cons_append, hbefore, List.mem_append, or_iff_right hother]
    exact htold

end Reading

end ScalarLang
