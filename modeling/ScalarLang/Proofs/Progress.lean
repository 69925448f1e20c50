import ScalarLang.Proofs.Interruption
import ScalarLang.Proofs.Tiling
/-!
# Reading on after errors comes to an end

A round reads an item and synchronizes if that fails. What is pending after a round is a proper final
part of what was pending before it (`exists_taken_item`), though an item alone may leave everything where
it was, and so may a synchronization alone. So there are no more rounds than the stream has answers
(`Rounds.exists_taken`), and the lexer has no more answers than a text has bytes.
-/
namespace ScalarLang

variable {ε : Type}

/-! ## What is pending -/

namespace Cursor

/-- The tokens and errors that are still to be taken. The end of input cannot be taken. -/
def pending (c : Cursor ε) : List (Except ε Token) :=
  match c.lookahead with
  | some t => if t.isEnd then c.coming else .ok t :: c.coming
  | none => c.coming

theorem length_pending (c : Cursor ε) : c.pending.length = c.size := by
  obtain ⟨l, cs, p⟩ := c
  cases l with
  | none => rfl
  | some t => cases h : t.isEnd <;> simp [pending, size, held, h]

theorem pending_ofStream (s : TokenStream ε) : (ofStream s).pending = s.answers := rfl

theorem pending_skip_suffix (c : Cursor ε) : c.skip.pending <:+ c.pending := by
  show c.coming <:+ c.pending
  unfold pending
  split
  · split
    · exact List.suffix_rfl
    · exact List.suffix_cons _ _
  · exact List.suffix_rfl

/-- A look takes nothing but errors. -/
theorem pending_peek_suffix (c : Cursor ε) : c.peek.2.pending <:+ c.pending := by
  obtain ⟨l, cs, p⟩ := c
  rcases l with _ | t
  · rcases cs with _ | ⟨e | t, cs⟩
    · exact List.suffix_rfl
    · exact List.suffix_cons _ _
    · simp only [peek, pending]
      split
      · exact List.suffix_cons _ _
      · exact List.suffix_rfl
  · exact List.suffix_rfl

end Cursor

namespace Reading

/-- A cursor with nothing pending but a final part of `all`, related to itself. -/
def Within (all : List (Except ε Token)) (c d : Cursor ε) : Prop := c = d ∧ c.pending <:+ all

theorem Within.skip {all : List (Except ε Token)} {c d : Cursor ε} (h : Within all c d) :
    Within all c.skip d.skip :=
  ⟨by rw [h.1], c.pending_skip_suffix.trans h.2⟩

/-- Nothing is pending that was not pending before. -/
theorem aligned_within (all : List (Except ε Token)) :
    Aligned (Within all) Eq Eq (Eq : Failure ε → Failure ε → Prop) := by
  refine (Lockstep.of_eq ?_ fun _ => rfl).aligned Within.skip
  rintro c d ⟨rfl, h⟩
  have hpeek := c.pending_peek_suffix.trans h
  rcases hp : c.peek with ⟨e | t, c'⟩ <;> rw [hp] at hpeek
  · exact .error rfl ⟨rfl, hpeek⟩
  · exact .token rfl ⟨rfl, hpeek⟩ fun _ => Within.skip ⟨rfl, hpeek⟩

end Reading

namespace Parse

theorem pending_item_suffix (c : Cursor ε) : (item c).cursor.pending <:+ c.pending :=
  ((Reading.aligned_within c.pending).alike_item ⟨rfl, List.suffix_rfl⟩).cursor.2

theorem pending_synchronize_suffix (c : Cursor ε) : (synchronize c).pending <:+ c.pending :=
  ((Reading.aligned_within c.pending).related_synchronize ⟨rfl, List.suffix_rfl⟩).2

theorem pending_resume_suffix (c : Cursor ε) : (resume (item c)).pending <:+ c.pending := by
  unfold resume
  split
  · exact pending_item_suffix c
  · exact (pending_synchronize_suffix _).trans (pending_item_suffix c)

/-- An item and the synchronization after it take something. Each of them alone may take nothing. -/
theorem exists_taken_item (c : Cursor ε) (h : (item c).result ≠ .ok none) :
    ∃ taken, c.pending = taken ++ (resume (item c)).pending ∧ 0 < taken.length := by
  obtain ⟨taken, htaken⟩ := pending_resume_suffix c
  have hlt := size_resume_item_lt c h
  have hlength := congrArg List.length htaken
  rw [List.length_append, Cursor.length_pending, Cursor.length_pending] at hlength
  exact ⟨taken, htaken.symm, by omega⟩

/-- One round takes something, so that what is taken outnumbers the rounds. -/
theorem exists_taken_succ {c d : Cursor ε} {n : Nat} (h : (item c).result ≠ .ok none)
    (hrest : ∃ more, (resume (item c)).pending = more ++ d.pending ∧ n ≤ more.length) :
    ∃ taken, c.pending = taken ++ d.pending ∧ n + 1 ≤ taken.length := by
  obtain ⟨taken, htaken, hpos⟩ := exists_taken_item c h
  obtain ⟨more, hmore, hle⟩ := hrest
  refine ⟨taken ++ more, by rw [htaken, hmore, List.append_assoc], ?_⟩
  rw [List.length_append]
  omega

/-! ## Rounds -/

/-- Rounds from the first cursor to the second, with their results: an item is read, and after an error
reading goes on at the next place where an item can start. -/
inductive Rounds : Cursor ε → List (Except (Failure ε) Item) → Cursor ε → Prop
  | none (c : Cursor ε) : Rounds c [] c
  | item {c d : Cursor ε} {i : Item} {rs : List (Except (Failure ε) Item)}
      (hi : (item c).result = .ok (some i)) (h : Rounds (item c).cursor rs d) : Rounds c (.ok i :: rs) d
  | error {c d : Cursor ε} {f : Failure ε} {rs : List (Except (Failure ε) Item)}
      (hf : (item c).result = .error f) (h : Rounds (synchronize (item c).cursor) rs d) :
      Rounds c (.error f :: rs) d

namespace Rounds

variable {c d : Cursor ε} {rs : List (Except (Failure ε) Item)}

/-- The results of a program are those of the rounds so far and those that are still to come. -/
theorem results_eq (h : Rounds c rs d) : results c = rs ++ results d := by
  induction h with
  | none c => rfl
  | item hi _ ih =>
    rw [Reading.results_eq, Reading.item, Parsed.outcome, hi]
    simp only [ih, List.cons_append]
  | error hf _ ih =>
    rw [Reading.results_eq, Reading.item, Parsed.outcome, hf]
    simp only [ih, List.cons_append]

/-- Rounds take at least as many tokens and errors as there are rounds. -/
theorem exists_taken (h : Rounds c rs d) :
    ∃ taken, c.pending = taken ++ d.pending ∧ rs.length ≤ taken.length := by
  induction h with
  | none c => exact ⟨[], rfl, Nat.le_refl _⟩
  | item hi _ ih => exact exists_taken_succ (by simp [hi]) (by simpa only [resume, hi] using ih)
  | error hf _ ih => exact exists_taken_succ (by simp [hf]) (by simpa only [resume, hf] using ih)

end Rounds

/-- The rounds of a program come to a cursor where no item is left. -/
theorem exists_rounds (c : Cursor ε) : ∃ d, Rounds c (results c) d ∧ (item d).result = .ok none := by
  have hlt := size_resume_item_lt c
  rw [Reading.results_eq, Reading.item, Parsed.outcome]
  cases hr : (item c).result with
  | ok i =>
    cases i with
    | none => exact ⟨c, .none c, hr⟩
    | some i =>
      have hlt : (item c).cursor.size < c.size := by simpa [resume, hr] using hlt
      obtain ⟨d, hd, hend⟩ := exists_rounds (item c).cursor
      exact ⟨d, .item hr hd, hend⟩
  | error f =>
    have hlt : (synchronize (item c).cursor).size < c.size := by simpa [resume, hr] using hlt
    obtain ⟨d, hd, hend⟩ := exists_rounds (synchronize (item c).cursor)
    exact ⟨d, .error hr hd, hend⟩
termination_by c.size

end Parse

/-! ## Texts -/

theorem Glyph.length_decode_le (bytes : List UInt8) : (decode bytes).length ≤ bytes.length := by
  fun_induction decode bytes with
  | case1 => exact Nat.le_refl _
  | case2 a rest ih =>
    rw [List.length_drop] at ih
    simp only [List.length_cons]
    omega

namespace TokenStream

theorem Tiles.length_le {pos ending : Position} {gs : List Glyph} {answers : List (Except ScanError Token)}
    (h : Tiles pos gs answers ending) : answers.length ≤ gs.length := by
  induction h with
  | last _ => exact Nat.zero_le _
  | lexeme _ hne _ _ _ ih =>
    have hpos := List.length_pos_iff.2 hne
    simp only [List.length_cons, List.length_append]
    omega

/-- A text has no more tokens and errors than bytes, and one more error if it cannot be read to its end. -/
theorem length_answers_le (bytes : List UInt8) (failure : Option String) :
    (ofBytes bytes failure).answers.length ≤ bytes.length + failure.toList.length := by
  have htiles := (tiles_ofBytes bytes).length_le
  have hglyphs := Glyph.length_decode_le bytes
  cases failure with
  | none => exact Nat.le_trans htiles hglyphs
  | some cause =>
    rw [ofBytes_failure]
    simp only [List.length_append, Option.toList_some, List.length_singleton]
    omega

end TokenStream

namespace Parse

/-- Reading item after item, and on after every error, ends. Each round takes at least one of the tokens
and errors that are pending. The rounds on a stream come to a place where no item is left, and there
are at most as many as the stream has answers, wherever one stops. The lexer answers with at most as
many tokens and errors as a text has bytes, and the failure of the reader if there is one; from then
on it is the end of input. -/
theorem rounds_ofStream :
    (∀ (c d : Cursor ε) (r : Except (Failure ε) Item), Rounds c [r] d →
      ∃ taken, taken ≠ [] ∧ c.pending = taken ++ d.pending) ∧
    (∀ s : TokenStream ε,
      (∃ d, Rounds (.ofStream s) (results (.ofStream s)) d ∧ (item d).result = .ok none) ∧
      ∀ rs d, Rounds (.ofStream s) rs d → rs <+: results (.ofStream s) ∧
        rs.length + d.pending.length ≤ s.answers.length) ∧
    ∀ (bytes : List UInt8) (failure : Option String),
      (TokenStream.ofBytes bytes failure).answers.length ≤ bytes.length + failure.toList.length ∧
      (∀ t, .ok t ∈ (TokenStream.ofBytes bytes failure).answers → t.isEnd = false) ∧
      ∀ n, (Cursor.ofStream (.ofBytes bytes failure)).call n =
        (TokenStream.ofBytes bytes failure).answers[n]?.getD
          (.ok (TokenStream.ofBytes bytes failure).final) := by
  refine ⟨fun c d r h => ?_, fun s => ⟨exists_rounds _, fun rs d h => ⟨?_, ?_⟩⟩, fun bytes failure => ?_⟩
  · obtain ⟨taken, htaken, hle⟩ := h.exists_taken
    exact ⟨taken, List.length_pos_iff.1 hle, htaken⟩
  · rw [h.results_eq]
    exact List.prefix_append ..
  · obtain ⟨taken, htaken, hle⟩ := h.exists_taken
    rw [← Cursor.pending_ofStream, htaken, List.length_append]
    omega
  · exact ⟨TokenStream.length_answers_le bytes failure, fun _ => Reading.isEnd_of_mem_ofBytes,
      Cursor.call_ofStream fun _ => Reading.isEnd_of_mem_ofBytes⟩

/-- A sign that is none, an error, a semicolon and a name. -/
def stuck : TokenStream String :=
  ⟨[.ok ⟨.operator, "*", .unknown⟩, .error "unreadable", .ok ⟨.semicolon, ";", .unknown⟩,
    .ok ⟨.identifier, "x", .unknown⟩], .unknown⟩

/-- There the first item takes nothing. It is the synchronization after it that gets on. -/
theorem rounds_ofStream_stuck :
    (item (.ofStream stuck)).cursor.pending = stuck.answers ∧
    Rounds (.ofStream stuck) [.error (.grammar ⟨.notSign .mul, ⟨.operator, "*", .unknown⟩⟩)]
      ⟨none, [.ok ⟨.identifier, "x", .unknown⟩], .unknown⟩ ∧
    (∃ taken, taken ≠ [] ∧ stuck.answers = taken ++ [.ok ⟨.identifier, "x", .unknown⟩]) ∧
    (results (.ofStream stuck)).length = 2 ∧
    ∃ d, Rounds (.ofStream stuck) (results (.ofStream stuck)) d ∧ (item d).result = .ok none := by
  have hround : Rounds (.ofStream stuck)
      [.error (.grammar ⟨.notSign .mul, ⟨.operator, "*", .unknown⟩⟩)]
      ⟨none, [.ok ⟨.identifier, "x", .unknown⟩], .unknown⟩ := by
    have hnext : synchronize (item (.ofStream stuck)).cursor =
        ⟨none, [.ok ⟨.identifier, "x", .unknown⟩], .unknown⟩ := by with_unfolding_all rfl
    refine .error (by with_unfolding_all rfl) ?_
    rw [hnext]
    exact .none _
  obtain ⟨htaken, hends, -⟩ := rounds_ofStream (ε := String)
  exact ⟨by with_unfolding_all rfl, hround, htaken _ _ _ hround, by with_unfolding_all rfl, (hends stuck).1⟩

end Parse

end ScalarLang
