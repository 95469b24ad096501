/-
# Texts that can be read back

A word in a text is read up to the first character that cannot belong to it,
so two texts that begin with words have the same word and the same rest
(`append_inj`). Decimal numbers are such words (`intDigits_inj`).
-/
import Mathlib.Data.List.Basic
import Mathlib.Tactic.Common

namespace Text

/-- The text is empty or begins with a character of the set. -/
def Begins (P : Char → Prop) (text : List Char) : Prop := ∀ c ∈ text.head?, P c

theorem begins_cons {P : Char → Prop} {c : Char} {text : List Char} :
    Begins P (c :: text) ↔ P c := by
  simp [Begins]

theorem begins_nil {P : Char → Prop} : Begins P [] := by
  simp [Begins]

/-- Two words, each before a character that none of them has. -/
theorem append_inj {P : Char → Prop} {word word' rest rest' : List Char}
    (hword : ∀ c ∈ word, ¬P c) (hword' : ∀ c ∈ word', ¬P c) (hrest : Begins P rest)
    (hrest' : Begins P rest') (h : word ++ rest = word' ++ rest') :
    word = word' ∧ rest = rest' := by
  induction word generalizing word' with
  | nil =>
    cases word' with
    | nil => exact ⟨rfl, h⟩
    | cons c word' =>
      have hrest : Begins P (c :: (word' ++ rest')) := by
        rw [← List.cons_append, ← h]
        exact hrest
      exact absurd (begins_cons.mp hrest) (hword' c (List.mem_cons_self ..))
  | cons c word ih =>
    cases word' with
    | nil =>
      have hrest' : Begins P (c :: (word ++ rest)) := by
        rw [← List.cons_append, h]
        exact hrest'
      exact absurd (begins_cons.mp hrest') (hword c (List.mem_cons_self ..))
    | cons c' word' =>
      obtain ⟨rfl, htail⟩ := List.cons_eq_cons.mp h
      obtain ⟨rfl, hrests⟩ := ih (fun x hx => hword x (List.mem_cons_of_mem _ hx))
        (fun x hx => hword' x (List.mem_cons_of_mem _ hx)) htail
      exact ⟨rfl, hrests⟩

/-! ### Decimal numbers -/

def natDigits (n : Nat) : List Char := Nat.toDigits 10 n

/-- The digits of an integer, after a sign if it is negative. -/
def intDigits : Int → List Char
  | .ofNat n => natDigits n
  | .negSucc n => '-' :: natDigits (n + 1)

/-- The characters of decimal numbers. -/
def IsNumeral (c : Char) : Prop := c.isDigit = true ∨ c = '-'

theorem natDigits_inj {m n : Nat} (h : natDigits m = natDigits n) : m = n := by
  have hm : Nat.ofDigitChars 10 (natDigits m) 0 = m := Nat.ofDigitChars_ten_toDigits
  have hn : Nat.ofDigitChars 10 (natDigits n) 0 = n := Nat.ofDigitChars_ten_toDigits
  rw [← hm, ← hn, h]

theorem isDigit_of_mem_natDigits {n : Nat} {c : Char} (h : c ∈ natDigits n) : c.isDigit = true :=
  Nat.isDigit_of_mem_toDigits (by decide) (by decide) h

theorem natDigits_ne_nil (n : Nat) : natDigits n ≠ [] := Nat.toDigits_ne_nil

theorem isNumeral_of_mem_natDigits {n : Nat} {c : Char} (h : c ∈ natDigits n) : IsNumeral c :=
  .inl (isDigit_of_mem_natDigits h)

theorem isNumeral_of_mem_intDigits {n : Int} {c : Char} (h : c ∈ intDigits n) : IsNumeral c := by
  cases n with
  | ofNat n => exact isNumeral_of_mem_natDigits h
  | negSucc n =>
    rcases List.mem_cons.mp h with rfl | h
    · exact .inr rfl
    · exact isNumeral_of_mem_natDigits h

theorem intDigits_ne_nil (n : Int) : intDigits n ≠ [] := by
  cases n with
  | ofNat n => exact natDigits_ne_nil n
  | negSucc n => exact List.cons_ne_nil _ _

theorem intDigits_cons (n : Int) : ∃ d digits, intDigits n = d :: digits ∧ IsNumeral d := by
  rcases hn : intDigits n with _ | ⟨d, digits⟩
  · exact absurd hn (intDigits_ne_nil n)
  · exact ⟨d, digits, rfl, isNumeral_of_mem_intDigits (n := n) (hn ▸ List.mem_cons_self ..)⟩

theorem intDigits_inj {m n : Int} (h : intDigits m = intDigits n) : m = n := by
  have hsign : ∀ m n : Nat, natDigits m ≠ '-' :: natDigits n := by
    intro m n h
    have hdigit := isDigit_of_mem_natDigits (h ▸ List.mem_cons_self ..)
    exact absurd hdigit (by decide)
  cases m with
  | ofNat m =>
    cases n with
    | ofNat n => exact congrArg Int.ofNat (natDigits_inj h)
    | negSucc n => exact absurd h (hsign m (n + 1))
  | negSucc m =>
    cases n with
    | ofNat n => exact absurd h.symm (hsign n (m + 1))
    | negSucc n =>
      have hsucc := natDigits_inj (List.cons_eq_cons.mp h).2
      exact congrArg Int.negSucc (Nat.succ.inj hsucc)

/-- A number before a character that is none of a number. -/
theorem intDigits_append_inj {m n : Int} {rest rest' : List Char}
    (hrest : Begins (fun c => ¬IsNumeral c) rest) (hrest' : Begins (fun c => ¬IsNumeral c) rest')
    (h : intDigits m ++ rest = intDigits n ++ rest') : m = n ∧ rest = rest' := by
  obtain ⟨hdigits, hrests⟩ := append_inj
    (fun _ hc => not_not_intro (isNumeral_of_mem_intDigits hc))
    (fun _ hc => not_not_intro (isNumeral_of_mem_intDigits hc)) hrest hrest' h
  exact ⟨intDigits_inj hdigits, hrests⟩

theorem natDigits_append_inj {m n : Nat} {rest rest' : List Char}
    (hrest : Begins (fun c => ¬IsNumeral c) rest) (hrest' : Begins (fun c => ¬IsNumeral c) rest')
    (h : natDigits m ++ rest = natDigits n ++ rest') : m = n ∧ rest = rest' := by
  obtain ⟨heq, hrests⟩ := intDigits_append_inj (m := m) (n := n) hrest hrest' h
  exact ⟨Int.ofNat.inj heq, hrests⟩

theorem not_isNumeral_of {c : Char} (hdigit : c.isDigit = false) (hsign : c ≠ '-') :
    ¬IsNumeral c := by
  rintro (h | h)
  · rw [hdigit] at h
    cases h
  · exact hsign h

end Text
