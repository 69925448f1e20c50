import ScalarLang.Proofs.Lockstep
/-!
# Reading on after an error finds the next item

`results_append_boundary`: what stands before a boundary, however malformed, decides only a front part of
the results; the boundary and what follows it are read as if they stood alone.

A cursor *awaits* a boundary that is the last thing still to be read. Whatever is appended to its stream,
an item that starts before the boundary is read in the same way, and the boundary is still awaited
afterwards; reading in lockstep gives that for all grammar functions at once.
-/
namespace ScalarLang

namespace Cursor

variable {ε : Type}

/-- The cursor with more answers at the end of its stream. -/
def followed (c : Cursor ε) (more : List (Except ε Token)) (ending : Position) : Cursor ε :=
  ⟨c.lookahead, c.coming ++ more, ending⟩

theorem skip_followed (c : Cursor ε) (more : List (Except ε Token)) (ending : Position) :
    (c.followed more ending).skip = c.skip.followed more ending := rfl

/-- The token `b` is the last thing to be read, and no end of input comes before it. -/
def Awaits (c : Cursor ε) (b : Token) : Prop :=
  (c.lookahead = some b ∧ c.coming = []) ∨
    ∃ front, c.coming = front ++ [.ok b] ∧ (∀ t, .ok t ∈ front → t.isEnd = false) ∧
      ∀ t, c.lookahead = some t → t.isEnd = false

/-- A token that was looked at is the awaited one, or can be taken and leaves that one awaited. -/
theorem Awaits.skip {c : Cursor ε} {b t : Token} (h : c.Awaits b) (hl : c.lookahead = some t) :
    (t = b ∧ c.coming = []) ∨ (t.isEnd = false ∧ c.skip.Awaits b) := by
  rcases h with ⟨hb, hc⟩ | ⟨front, hc, hf, he⟩
  · rw [hl] at hb
    exact .inl ⟨by simpa using hb, hc⟩
  · exact .inr ⟨he t hl, .inr ⟨front, hc, hf, by simp [Cursor.skip]⟩⟩

end Cursor

namespace Reading

variable {ε : Type}

/-- `d` is `c`, which awaits `b`, with more to read. -/
def Follows (b : Token) (more : List (Except ε Token)) (ending : Position) (c d : Cursor ε) : Prop :=
  c.Awaits b ∧ d = c.followed more ending

variable {b : Token}

/-- What follows an awaited boundary is not seen by a look. -/
theorem looks_followed (hb : b.isBoundary = true) {c : Cursor ε} (h : c.Awaits b)
    (more : List (Except ε Token)) (ending : Position) :
    Looks (Follows b more ending) Eq Eq c.peek (c.followed more ending).peek := by
  obtain ⟨l, cs, p⟩ := c
  rcases l with _ | t
  · rcases h with ⟨hl, -⟩ | ⟨front, hc, hf, he⟩
    · simp at hl
    · simp only at hc
      subst hc
      rcases front with _ | ⟨e | t, front⟩
      · exact .token rfl ⟨.inl ⟨rfl, rfl⟩, rfl⟩ (by simp [hb])
      · refine .error rfl ⟨.inr ⟨front, rfl, fun t ht => hf t (by simp [ht]), by simp⟩, ?_⟩
        simp [Cursor.followed]
      · have ha : (⟨some t, front ++ [.ok b], p⟩ : Cursor ε).Awaits b :=
          .inr ⟨front, rfl, fun u hu => hf u (by simp [hu]), fun u hu => hf u (by simp_all)⟩
        refine .token rfl ⟨ha, by simp [Cursor.followed]⟩ fun hn => ?_
        rcases ha.skip rfl with ⟨rfl, -⟩ | ⟨-, hs⟩
        · rw [hb] at hn; cases hn
        · exact ⟨hs, by simp [Cursor.followed, Cursor.skip]⟩
  · refine .token rfl ⟨h, rfl⟩ fun hn => ?_
    rcases h.skip rfl with ⟨rfl, -⟩ | ⟨-, hs⟩
    · rw [hb] at hn; cases hn
    · exact ⟨hs, rfl⟩

theorem lockstep_followed (hb : b.isBoundary = true) (more : List (Except ε Token))
    (ending : Position) :
    Lockstep (Follows b more ending) Eq Eq (Eq : Failure ε → Failure ε → Prop) :=
  .of_eq (by rintro c d ⟨h, rfl⟩; exact looks_followed hb h more ending) fun _ => rfl

/-! ## One item -/

/-- A look at a cursor that awaits a boundary does not depend on what follows the boundary. -/
theorem look_followed (hb : b.isBoundary = true) {c : Cursor ε} (h : c.Awaits b) :
    (∃ e c', look c = .error e c' ∧ c'.Awaits b ∧
      ∀ more ending, look (c.followed more ending) = .error e (c'.followed more ending)) ∨
    ∃ t c', look c = .ok t c' ∧ c'.Awaits b ∧
      ∀ more ending, look (c.followed more ending) = .ok t (c'.followed more ending) := by
  have hl := looks_followed hb h
  rcases hp : c.peek with ⟨e | t, c'⟩ <;> rw [hp] at hl
  · obtain ⟨-, -, -, -, ha, -⟩ := (hl [] .start).of_error
    refine .inl ⟨.stream e, c', look_of_peek_error hp, ha, fun more ending => ?_⟩
    obtain ⟨e', d, hq, hf, -, rfl⟩ := (hl more ending).of_error
    simp [look, hq, hf]
  · obtain ⟨-, -, -, -, ⟨ha, -⟩, -⟩ := (hl [] .start).of_token
    refine .inr ⟨t, c', look_of_peek hp, ha, fun more ending => ?_⟩
    obtain ⟨u, d, hq, rfl, ⟨-, rfl⟩, -⟩ := (hl more ending).of_token
    exact look_of_peek hq

theorem take_boundary (he : b.isEnd = false) (more : List (Except ε Token)) (ending : Position) :
    take ⟨none, .ok b :: more, ending⟩ = .ok b ⟨none, more, ending⟩ := by
  simp [take, Cursor.next, Cursor.peek, he, Cursor.skip]

/-- Reading an item either ends before the awaited boundary, with an item or an error, in the same way
whatever follows it, or starts at that boundary. -/
theorem item_followed (hb : b.isBoundary = true) (he : b.isEnd = false) {c : Cursor ε}
    (h : c.Awaits b) :
    (∃ i c', item c = .ok (some i) c' ∧ c'.Awaits b ∧
      ∀ more ending, item (c.followed more ending) = .ok (some i) (c'.followed more ending)) ∨
    (∃ e c', item c = .error e c' ∧ c'.Awaits b ∧
      ∀ more ending, item (c.followed more ending) = .error e (c'.followed more ending)) ∨
    ∀ more ending, item (c.followed more ending) = item ⟨none, .ok b :: more, ending⟩ := by
  -- the first look shows an error, the boundary itself or a token before it
  rcases look_followed hb h with ⟨e, c', hc, ha, hf⟩ | ⟨t, c', hc, ha, hf⟩
  · exact .inr (.inl ⟨e, c', item_of_look_error hc, ha,
      fun more ending => item_of_look_error (hf more ending)⟩)
  · have hl := Cursor.lookahead_peek (peek_of_look hc)
    rcases ha.skip hl with ⟨rfl, hnil⟩ | ⟨ht, hs⟩
    · refine .inr (.inr fun more ending => item_congr ?_)
      rw [take_boundary he, take_of_look (hf more ending)]
      simp [he, Cursor.followed, Cursor.skip, hnil]
    · have hitem := fun more ending => item_of_look (hf more ending) ht
      simp only [item_of_look hc ht, hitem]
      by_cases hsemi : t.kind = .semicolon
      · -- a semicolon before the item is passed over, and what is left is shorter
        have := size_skip_look_lt hc ht
        simpa only [hsemi, ↓reduceIte, Cursor.skip_followed] using item_followed hb he hs
      · have hi := fun more ending => (lockstep_followed hb more ending).alike_itemFrom rfl hl
          (d := c'.followed more ending) hl (fun _ _ => ⟨ha, rfl⟩) ⟨hs, rfl⟩
        simp only [hsemi, ↓reduceIte, map_itemFrom]
        cases hfrom : itemFrom t c'.skip with
        | ok i c₁ =>
          rw [hfrom] at hi
          obtain ⟨-, -, -, -, ha₁, -⟩ := (hi [] .start).of_ok
          refine .inl ⟨i, c₁, rfl, ha₁, fun more ending => ?_⟩
          obtain ⟨j, d, hj, hij, -, rfl⟩ := (hi more ending).of_ok
          rw [hj, hij.eq_of_eq]
        | error e c₁ =>
          rw [hfrom] at hi
          obtain ⟨-, -, -, -, ha₁, -⟩ := (hi [] .start).of_error
          refine .inr (.inl ⟨e, c₁, rfl, ha₁, fun more ending => ?_⟩)
          obtain ⟨f, d, hj, hij, -, rfl⟩ := (hi more ending).of_error
          rw [hj, hij]
termination_by c.size

/-! ## Synchronizing -/

/-- Synchronizing stops before the awaited boundary, in the same way whatever follows it, or goes up
to that boundary and no further. -/
theorem synchronize_followed (hb : b.isBoundary = true) (he : b.isEnd = false) {c : Cursor ε}
    (h : c.Awaits b) :
    ((Parse.synchronize c).Awaits b ∧ ∀ more ending,
      Parse.synchronize (c.followed more ending) = (Parse.synchronize c).followed more ending) ∨
    ∀ more ending, item (Parse.synchronize (c.followed more ending)) =
      item ⟨none, .ok b :: more, ending⟩ := by
  rcases look_followed hb h with ⟨e, c', hc, ha, hf⟩ | ⟨t, c', hc, ha, hf⟩
  · have := size_look_error_lt hc
    have hi := synchronize_followed hb he ha
    simpa only [synchronize_eq c, fun more ending => synchronize_eq (c.followed more ending), hc, hf]
      using hi
  · have hl := Cursor.lookahead_peek (peek_of_look hc)
    rcases ha.skip hl with ⟨rfl, hnil⟩ | ⟨ht, hs⟩
    · -- the boundary itself: a keyword is left for the next item, a semicolon is passed over
      refine .inr fun more ending => ?_
      have hstop : (c'.followed more ending).skip = ⟨none, more, ending⟩ := by
        simp [Cursor.followed, Cursor.skip, hnil]
      simp only [synchronize_eq (c.followed more ending), hf, hstop]
      split
      · apply item_congr
        rw [take_boundary he, take_of_look (look_of_lookahead (c := c'.followed more ending) hl), he,
          hstop]
        rfl
      · rename_i hk
        have hsemi : t.kind = .semicolon := by
          simp only [Token.isBoundary, Bool.or_eq_true, decide_eq_true_eq] at hb hk
          tauto
        rw [if_pos hsemi, item_of_look (c := ⟨none, .ok t :: more, ending⟩) (look_of_peek rfl) he,
          if_pos hsemi]
        rfl
    · simp only [synchronize_eq c, fun more ending => synchronize_eq (c.followed more ending), hc, hf]
      split
      · exact .inl ⟨ha, fun _ _ => rfl⟩
      · split
        · exact .inl ⟨hs, fun _ _ => rfl⟩
        · have := size_skip_look_lt hc ht
          exact synchronize_followed hb he hs
termination_by c.size

/-! ## All results -/

/-- A cursor that awaits a boundary gives some results of its own and then those that start at the
boundary. -/
theorem results_followed (hb : b.isBoundary = true) (he : b.isEnd = false) {c : Cursor ε}
    (h : c.Awaits b) :
    ∃ front, ∀ more ending, Parse.results (c.followed more ending) =
      front ++ Parse.results ⟨none, .ok b :: more, ending⟩ := by
  -- every round takes something before the boundary, or starts at it
  rcases item_followed hb he h with ⟨i, c', hc, ha, hf⟩ | ⟨e, c', hc, ha, hf⟩ | hf
  · have := size_item_lt hc
    obtain ⟨front, hfront⟩ := results_followed hb he ha
    refine ⟨.ok i :: front, fun more ending => ?_⟩
    rw [results_eq, hf]
    simp only [hfront, List.cons_append]
  · have hlt := size_synchronize_item_lt hc
    rcases synchronize_followed hb he ha with ⟨hs, hsync⟩ | hsync
    · obtain ⟨front, hfront⟩ := results_followed hb he hs
      refine ⟨.error e :: front, fun more ending => ?_⟩
      rw [results_eq, hf]
      simp only [hsync, hfront, List.cons_append]
    · refine ⟨[.error e], fun more ending => ?_⟩
      rw [results_eq, hf]
      simp only [results_congr (hsync more ending), List.cons_append, List.nil_append]
  · exact ⟨[], fun more ending => results_congr (hf more ending)⟩
termination_by c.size

theorem results_before_boundary {A : List (Except ε Token)} (hA : ∀ t, .ok t ∈ A → t.isEnd = false)
    (hb : b.isBoundary = true) (he : b.isEnd = false) :
    ∃ front, ∀ more ending, Parse.results (⟨none, A ++ .ok b :: more, ending⟩ : Cursor ε) =
      front ++ Parse.results ⟨none, .ok b :: more, ending⟩ := by
  have hawaits : (⟨none, A ++ [.ok b], .start⟩ : Cursor ε).Awaits b := .inr ⟨A, rfl, hA, by simp⟩
  obtain ⟨front, hfront⟩ := results_followed hb he hawaits
  refine ⟨front, fun more ending => ?_⟩
  simpa [Cursor.followed] using hfront more ending

/-- What a stream answers before a boundary gives a front part of the results that does not depend on
what follows; the rest are the results of reading from the boundary on. -/
theorem results_append_boundary {A : List (Except ε Token)}
    (hA : ∀ t, .ok t ∈ A → t.kind ≠ .endOfInput)
    (hb : b.kind = .semicolon ∨ b.isKeyword .define = true ∨ b.isKeyword .external = true) :
    ∃ front, ∀ (B : List (Except ε Token)) (ending : Position),
      Parse.results (.ofStream ⟨A ++ .ok b :: B, ending⟩) =
        front ++ Parse.results (.ofStream ⟨.ok b :: B, ending⟩) := by
  have he : b.isEnd = false := by
    rcases hb with hb | hb | hb
    · exact Token.isEnd_of_kind hb (by simp)
    · exact Token.isEnd_of_isKeyword hb
    · exact Token.isEnd_of_isKeyword hb
  have hbound : b.isBoundary = true := by
    rcases hb with hb | hb | hb <;> simp [Token.isBoundary, hb]
  exact results_before_boundary (fun t ht => Token.isEnd_of_kind rfl (hA t ht)) hbound he

/-- A name, an error of the stream and an open parenthesis before a keyword: an item, an error that is
told and an item that breaks off leave the keyword where it is. -/
theorem results_append_boundary_broken :
    (∀ t : Token, .ok t ∈ ([.ok ⟨.identifier, "x", .start⟩, .error "unreadable",
      .ok ⟨.bracket, "(", .start⟩] : List (Except String Token)) → t.kind ≠ .endOfInput) ∧
    (⟨.keyword, "def", .start⟩ : Token).isKeyword .define = true ∧
    ∃ front, ∀ (B : List (Except String Token)) (ending : Position),
      Parse.results (.ofStream ⟨[.ok ⟨.identifier, "x", .start⟩, .error "unreadable",
        .ok ⟨.bracket, "(", .start⟩] ++ .ok ⟨.keyword, "def", .start⟩ :: B, ending⟩) =
      front ++ Parse.results (.ofStream ⟨.ok ⟨.keyword, "def", .start⟩ :: B, ending⟩) :=
  ⟨by simp, by decide, results_append_boundary (by simp) (.inr (.inl (by decide)))⟩

end Reading

end ScalarLang
