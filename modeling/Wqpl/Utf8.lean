/-
# Texts as bytes

The UTF-8 bytes of a text. No character's bytes begin like those of another one,
and only the first byte of a character may stand first. So bytes that begin or end
with those of a text are cut between two characters there (`bytes_prefix`,
`bytes_suffix`), wherever the bytes come from.
-/
import Wqpl.Spans

namespace Text

/-- `as_bytes`. -/
def bytes (text : List Char) : List UInt8 := text.flatMap String.utf8EncodeChar

theorem bytes_cons (c : Char) (text : List Char) :
    bytes (c :: text) = String.utf8EncodeChar c ++ bytes text := List.flatMap_cons

theorem bytes_append (a b : List Char) : bytes (a ++ b) = bytes a ++ bytes b :=
  List.flatMap_append

theorem length_bytes (text : List Char) : (bytes text).length = byteLen text := by
  induction text with
  | nil => rfl
  | cons c text ih => rw [bytes_cons, List.length_append, String.length_utf8EncodeChar, ih, byteLen]

/-- A character is read from the first of its bytes. -/
theorem utf8EncodeChar_append_inj {c d : Char} {a b : List UInt8}
    (h : String.utf8EncodeChar c ++ a = String.utf8EncodeChar d ++ b) : c = d ∧ a = b := by
  have hc := @ByteArray.utf8DecodeChar?_utf8EncodeChar_append a.toByteArray c
  have hd := @ByteArray.utf8DecodeChar?_utf8EncodeChar_append b.toByteArray d
  rw [← List.toByteArray_append] at hc hd
  rw [h] at hc
  obtain rfl := Option.some.inj (hc.symm.trans hd)
  exact ⟨rfl, List.append_cancel_left h⟩

/-- Bytes of a text that begin with those of another one. -/
theorem bytes_prefix {a b : List Char} {r : List UInt8} (h : bytes a ++ r = bytes b) :
    ∃ rest, b = a ++ rest ∧ r = bytes rest := by
  induction a generalizing b with
  | nil => exact ⟨b, rfl, h⟩
  | cons c a ih =>
    rw [bytes_cons, List.append_assoc] at h
    cases b with
    | nil =>
      have hempty := (List.append_eq_nil_iff.mp h).1
      exact absurd hempty String.utf8EncodeChar_ne_nil
    | cons d b =>
      rw [bytes_cons] at h
      obtain ⟨rfl, htail⟩ := utf8EncodeChar_append_inj h
      obtain ⟨rest, rfl, hr⟩ := ih htail
      exact ⟨rest, rfl, hr⟩

theorem bytes_inj {a b : List Char} (h : bytes a = bytes b) : a = b := by
  obtain ⟨rest, rfl, hrest⟩ := bytes_prefix ((List.append_nil _).trans h)
  cases rest with
  | nil => exact (List.append_nil a).symm
  | cons c rest =>
    rw [bytes_cons] at hrest
    exact absurd (List.append_eq_nil_iff.mp hrest.symm).1 String.utf8EncodeChar_ne_nil

/-- The bytes of a text do not begin inside a character. -/
theorem bytes_head_isFirst {text : List Char} {w : UInt8} {ws : List UInt8}
    (h : bytes text = w :: ws) : w.IsUTF8FirstByte := by
  cases text with
  | nil => cases h
  | cons c text =>
    rw [bytes_cons] at h
    have hpos : 0 < (String.utf8EncodeChar c).length := by
      rw [String.length_utf8EncodeChar]
      exact c.utf8Size_pos
    have hfirst := (@UInt8.isUTF8FirstByte_getElem_utf8EncodeChar c 0 hpos).mpr rfl
    have hw : (String.utf8EncodeChar c)[0] = w := by
      have hget : (String.utf8EncodeChar c ++ bytes text)[0]? = some w := by rw [h]; rfl
      rw [List.getElem?_append_left hpos, List.getElem?_eq_getElem hpos] at hget
      exact Option.some.inj hget
    rwa [hw] at hfirst

/-- Bytes of a text that end with those of another one. -/
theorem bytes_suffix {a b : List Char} {l : List UInt8} (h : l ++ bytes a = bytes b) :
    ∃ before, b = before ++ a ∧ l = bytes before := by
  induction b generalizing l with
  | nil =>
    obtain ⟨hl, ha⟩ := List.append_eq_nil_iff.mp h
    exact ⟨[], (bytes_inj ha).symm, hl⟩
  | cons c b ih =>
    cases l with
    | nil => exact ⟨[], (bytes_inj h).symm, rfl⟩
    | cons w l =>
      rw [bytes_cons] at h
      rcases List.append_eq_append_iff.mp h with ⟨m, hm, hbytes⟩ | ⟨m, hl, hb⟩
      · cases m with
        | nil =>
          obtain ⟨before, hbefore, hnil⟩ := ih (l := []) hbytes
          refine ⟨[c], ?_, ?_⟩
          · rw [bytes_inj hbytes]
            rfl
          · rw [bytes_cons, hm, List.append_nil]
            exact (List.append_nil _).symm
        | cons w' m =>
          -- `w'` is a byte of `c`, but not its first one
          have hlen : (w :: l).length < (String.utf8EncodeChar c).length := by
            rw [hm, List.length_append, List.length_cons (a := w')]
            omega
          have hw' : (String.utf8EncodeChar c)[(w :: l).length] = w' := by
            have hget : (String.utf8EncodeChar c)[(w :: l).length]? = some w' := by
              rw [hm, List.getElem?_append_right (Nat.le_refl _), Nat.sub_self]
              rfl
            rw [List.getElem?_eq_getElem hlen] at hget
            exact Option.some.inj hget
          have hfirst := bytes_head_isFirst hbytes
          rw [← hw'] at hfirst
          have hzero := UInt8.isUTF8FirstByte_getElem_utf8EncodeChar.mp hfirst
          cases hzero
      · obtain ⟨before, rfl, rfl⟩ := ih hb.symm
        exact ⟨c :: before, rfl, by rw [bytes_cons, hl]⟩

end Text
