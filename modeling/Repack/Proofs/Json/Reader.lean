import Repack.Json.Reader
import Repack.Proofs.Json.Decimal
import Repack.Proofs.Json.Quoted

/-! What is written for a JSON value is read as this value. Its text splits into the tokens that it
was put together from, as words always have marks between them, and the machine that reads them
comes to the end of each value with this value in hand. -/
namespace Repack

namespace Token

/-- Whether a word that stands before a text ends there. -/
def Ends (rest : List Char) : Prop := ∀ c ∈ rest.head?, isLetter c = false

/-- Whether a text of some tokens is split into these tokens, if no word goes on after it. -/
def Splits (ts : List Token) : Prop :=
  ∀ rest, Ends rest → scan (ts.flatMap text ++ rest) = (scan rest).map (ts ++ ·)

theorem splits_nil : Splits [] := by
  intro rest _
  cases found : scan rest with
  | none => simp [found]
  | some us => simp [found]

theorem scan_mark (m : Mark) (rest : List Char) :
    scan (m.char :: rest) = (scan rest).map (.mark m :: ·) := by
  have blank : isBlank m.char = false := by cases m <;> decide
  have quote : m.char ≠ '"' := by cases m <;> decide
  have letter : isLetter m.char = false := by cases m <;> decide
  have known : Mark.ofChar? m.char = some m := by cases m <;> decide
  simp only [scan, blank, quote, letter, known, Bool.false_eq_true, if_false]

theorem scan_quoted {raw : List Char} (whole : Quoted.Whole raw) (rest : List Char) :
    scan ('"' :: (raw ++ '"' :: rest)) = (scan rest).map (.quoted raw :: ·) := by
  have blank : isBlank '"' = false := by decide
  rw [scan, blank, if_neg Bool.false_ne_true, if_pos rfl]
  split
  · next split =>
    rw [whole rest] at split
    cases split
    rfl
  · next split =>
    rw [whole rest] at split
    cases split

theorem scan_word {letters rest : List Char} (word : letters.all isLetter = true)
    (nonempty : letters ≠ []) (ends : Ends rest) :
    scan (letters ++ rest) = (scan rest).map (.word letters :: ·) := by
  obtain ⟨c, cs, rfl⟩ := List.exists_cons_of_ne_nil nonempty
  obtain ⟨first, others⟩ := List.forall_mem_cons.mp (List.all_eq_true.mp word)
  have blank : isBlank c = false := by
    by_contra blank
    simp only [isBlank, Bool.not_eq_false, Bool.or_eq_true, beq_iff_eq] at blank
    rcases blank with ((rfl | rfl) | rfl) | rfl <;> cases first
  have quote : c ≠ '"' := by
    rintro rfl
    cases first
  have stop : rest.takeWhile isLetter = [] ∧ rest.dropWhile isLetter = rest := by
    cases rest with
    | nil => exact ⟨rfl, rfl⟩
    | cons d ds =>
      have other : ¬ isLetter d = true := by simp [ends d rfl]
      exact ⟨List.takeWhile_cons_of_neg other, List.dropWhile_cons_of_neg other⟩
  rw [List.cons_append, scan, blank, if_neg Bool.false_ne_true, if_neg quote, if_pos first,
    List.takeWhile_append_of_pos others, List.dropWhile_append_of_pos others, stop.1, stop.2,
    List.append_nil]

/-- Tokens are split if they are on both sides of a mark. -/
theorem Splits.append_mark {ts us : List Token} (h : Splits ts) (m : Mark) (h' : Splits us) :
    Splits (ts ++ .mark m :: us) := by
  intro rest ends
  have letter : isLetter m.char = false := by cases m <;> decide
  have marked : Ends (m.char :: (us.flatMap text ++ rest)) := by
    intro c first
    obtain rfl := Option.some.inj first
    exact letter
  rw [List.flatMap_append, List.flatMap_cons, List.append_assoc, text, List.append_assoc,
    List.singleton_append, h _ marked, scan_mark, h' rest ends, Option.map_map, Option.map_map]
  congr 1
  funext vs
  simp

theorem Splits.cons_quoted {ts : List Token} {raw : List Char} (whole : Quoted.Whole raw)
    (h : Splits ts) : Splits (.quoted raw :: ts) := by
  intro rest ends
  have joined : (Token.quoted raw :: ts).flatMap text ++ rest =
      '"' :: (raw ++ '"' :: (ts.flatMap text ++ rest)) := by
    simp [text]
  rw [joined, scan_quoted whole, h rest ends, Option.map_map]
  rfl

theorem splits_word {letters : List Char} (word : letters.all isLetter = true)
    (nonempty : letters ≠ []) : Splits [.word letters] := by
  intro rest ends
  rw [List.flatMap_singleton, text, scan_word word nonempty ends]
  rfl

end Token

namespace Json

/-- A value whose numbers are words that are read as numbers, and whose texts end where they are to
end. -/
inductive Sound : Json → Prop
  | null : Sound null
  | bool (b : Bool) : Sound (bool b)
  | number {letters : List Char} (word : letters.all Token.isLetter = true)
    (known : ofWord? letters = some (number letters)) : Sound (number letters)
  | quoted {raw : List Char} (whole : Quoted.Whole raw) : Sound (quoted raw)
  | array {items : List Json} (sound : ∀ j ∈ items, Sound j) : Sound (array items)
  | object {fields : List (List Char × Json)} (whole : ∀ f ∈ fields, Quoted.Whole f.1)
    (sound : ∀ f ∈ fields, Sound f.2) : Sound (object fields)

variable {items : List Json} {fields : List (List Char × Json)} {j : Json}

section Scan

open Token (Splits)

theorem splits_itemTokens (each : ∀ j ∈ items, Splits j.tokens) : Splits (itemTokens items) := by
  induction items with
  | nil => exact Token.splits_nil
  | cons j rest ih =>
    obtain ⟨first, others⟩ := List.forall_mem_cons.mp each
    cases rest with
    | nil => exact first
    | cons k ks => exact first.append_mark .comma (ih others)

theorem splits_fieldTokens (whole : ∀ f ∈ fields, Quoted.Whole f.1)
    (each : ∀ f ∈ fields, Splits f.2.tokens) : Splits (fieldTokens fields) := by
  induction fields with
  | nil => exact Token.splits_nil
  | cons f rest ih =>
    obtain ⟨first, others⟩ := List.forall_mem_cons.mp each
    obtain ⟨key, keys⟩ := List.forall_mem_cons.mp whole
    have field : Splits (.quoted f.1 :: .mark .colon :: f.2.tokens) :=
      (Token.splits_nil.append_mark .colon first).cons_quoted key
    cases rest with
    | nil => exact field
    | cons g gs => exact field.append_mark .comma (ih keys others)

theorem Sound.splits (h : j.Sound) : Splits j.tokens := by
  induction h with
  | null => exact Token.splits_word rfl (List.cons_ne_nil _ _)
  | bool b =>
    cases b with
    | true => exact Token.splits_word rfl (List.cons_ne_nil _ _)
    | false => exact Token.splits_word rfl (List.cons_ne_nil _ _)
  | number word known =>
    apply Token.splits_word word
    rintro rfl
    cases known
  | quoted whole => exact Token.splits_nil.cons_quoted whole
  | array _ ih =>
    have within := splits_itemTokens ih
    exact Token.splits_nil.append_mark .openBracket
      (within.append_mark .closeBracket Token.splits_nil)
  | object whole _ ih =>
    have within := splits_fieldTokens whole ih
    exact Token.splits_nil.append_mark .openBrace
      (within.append_mark .closeBrace Token.splits_nil)

theorem Sound.scan_text (h : j.Sound) : Token.scan j.text = some j.tokens := by
  have split := h.splits [] nofun
  have ended : Token.scan [] = some [] := by rw [Token.scan]
  rwa [ended, List.append_nil, Option.map_some, List.append_nil] at split

end Scan

section Run

namespace State

theorem run_append (s : State) (ts us : List Token) :
    s.run (ts ++ us) = (s.run ts).bind fun t => t.run us := List.foldlM_append

theorem run_cons (s : State) (t : Token) (ts : List Token) :
    s.run (t :: ts) = (s.step t).bind fun u => u.run ts := List.foldlM_cons

end State

/-- Whether the machine reads a value whole, wherever one is due. -/
def Reads (j : Json) : Prop :=
  ∀ stack opened, State.run (.value stack opened) j.tokens = some (.after stack j)

variable {stack : List Frame}

theorem run_itemTokens (each : ∀ j ∈ items, Reads j) (nonempty : items ≠ []) (done : List Json)
    (opened : Bool) :
    State.run (.value (.items done :: stack) opened) (itemTokens items ++ [.mark .closeBracket]) =
      some (.after stack (.array (done ++ items))) := by
  -- On the items to come: those done move to the frame, and `opened` holds before the first only.
  induction items generalizing done opened with
  | nil => exact absurd rfl nonempty
  | cons j rest ih =>
    obtain ⟨first, others⟩ := List.forall_mem_cons.mp each
    cases rest with
    | nil =>
      rw [itemTokens, State.run_append, first]
      rfl
    | cons k ks =>
      have later := ih others (List.cons_ne_nil k ks) (done ++ [j]) false
      have joined : itemTokens (j :: k :: ks) = j.tokens ++ .mark .comma :: itemTokens (k :: ks) :=
        rfl
      rw [joined, List.append_assoc, State.run_append, first, Option.bind_some, List.cons_append,
        State.run_cons]
      rw [List.append_assoc] at later
      exact later

/-- The machine goes from a key past the colon to the value after it. -/
theorem run_field {f : List Char × Json} (reads : Reads f.2) (done : List (List Char × Json))
    (opened : Bool) (ts : List Token) :
    State.run (.key stack done opened) (.quoted f.1 :: .mark .colon :: f.2.tokens ++ ts) =
      State.run (.after (.fields done f.1 :: stack) f.2) ts := by
  have value := State.run_append (.value (.fields done f.1 :: stack) false) f.2.tokens ts
  rw [reads, Option.bind_some] at value
  rw [← value, List.cons_append, List.cons_append, State.run_cons]
  cases opened <;> rfl

theorem run_fieldTokens (each : ∀ f ∈ fields, Reads f.2) (nonempty : fields ≠ [])
    (done : List (List Char × Json)) (opened : Bool) :
    State.run (.key stack done opened) (fieldTokens fields ++ [.mark .closeBrace]) =
      some (.after stack (.object (done ++ fields))) := by
  induction fields generalizing done opened with
  | nil => exact absurd rfl nonempty
  | cons f rest ih =>
    obtain ⟨first, others⟩ := List.forall_mem_cons.mp each
    cases rest with
    | nil => exact run_field first done opened _
    | cons g gs =>
      have later := ih others (List.cons_ne_nil g gs) (done ++ [f]) false
      have joined : fieldTokens (f :: g :: gs) ++ [.mark .closeBrace] =
          .quoted f.1 :: .mark .colon :: f.2.tokens ++
            .mark .comma :: (fieldTokens (g :: gs) ++ [.mark .closeBrace]) := by
        simp [fieldTokens]
      rw [List.append_assoc] at later
      rw [joined, run_field first]
      exact later

theorem Sound.reads (h : j.Sound) : Reads j := by
  induction h with
  | null => exact fun stack opened => rfl
  | bool b => cases b <;> exact fun stack opened => rfl
  | @number letters _ known =>
    intro stack opened
    have step : (State.value stack opened).step (.word letters) =
        (ofWord? letters).map (.after stack) := rfl
    rw [tokens, State.run_cons, step, known]
    rfl
  | quoted whole => exact fun stack opened => rfl
  | @array items _ ih =>
    intro stack opened
    cases items with
    | nil => rfl
    | cons j rest => exact run_itemTokens ih (List.cons_ne_nil j rest) [] true
  | @object fields _ _ ih =>
    intro stack opened
    cases fields with
    | nil => rfl
    | cons f rest => exact run_fieldTokens ih (List.cons_ne_nil f rest) [] true

/-- What is written is read. -/
theorem Sound.ofText?_text (h : j.Sound) : ofText? j.text = some j := by
  rw [ofText?, h.scan_text]
  exact congrArg (·.bind State.result?) (h.reads [] false)

end Run

end Json

end Repack
