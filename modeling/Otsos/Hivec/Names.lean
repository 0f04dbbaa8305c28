import Otsos.Hivec.Nodes

/-! The names of a source as the kernel sees them: bytes of UTF-8, cut at the separators of the
kernel. -/
namespace Otsos.Hivec
open List

variable {text : Text} {b : UInt8}

theorem utf8_injective : Function.Injective utf8 := by
  intro s t same
  have encoded : s.utf8Encode = t.utf8Encode := congrArg toByteArray same
  have decoded := congrArg ByteArray.utf8Decode? encoded
  rw [utf8Decode?_utf8Encode, utf8Decode?_utf8Encode, Option.some.injEq] at decoded
  exact congrArg Array.toList decoded

theorem mem_utf8_ascii (member : b ∈ utf8 text) (low : b.toNat < 128) :
    ∃ c ∈ text, c.toNat = b.toNat := by
  obtain ⟨c, inside, here⟩ := mem_flatMap.mp member
  refine ⟨c, inside, ?_⟩
  rw [String.utf8EncodeChar] at here
  split at here
  · next small =>
    have small : c.toNat ≤ 127 := small
    rw [mem_singleton.mp here]
    exact (Nat.mod_eq_of_lt (by omega)).symm
  · -- the other bytes have their top bit set
    have high : ∀ n, 128 ≤ n → n < 256 → b = UInt8.ofNat n → False := fun n _ inside same => by
      rw [same, UInt8.toNat_ofNat'] at low
      omega
    split at here
    on_goal 2 => split at here
    all_goals simp only [mem_cons, not_mem_nil, or_false] at here
    · rcases here with here | here <;> exact (high _ (by omega) (by omega) here).elim
    · rcases here with here | here | here <;> exact (high _ (by omega) (by omega) here).elim
    · rcases here with here | here | here | here <;> exact (high _ (by omega) (by omega) here).elim

theorem utf8_ascii (low : ∀ c ∈ text, c.toNat < 128) :
    utf8 text = text.map fun c => UInt8.ofNat c.toNat := by
  induction text with
  | nil => rfl
  | cons c text ih =>
    have small : c.toNat < 128 := low c mem_cons_self
    have here : String.utf8EncodeChar c = [UInt8.ofNat c.toNat] := by
      exact if_pos (Nat.le_of_lt_succ small)
    rw [utf8, flatMap_cons, here, map_cons, ← ih fun c later => low c (mem_cons_of_mem _ later)]
    rfl

theorem utf8_ne_nil (some_ : text ≠ []) : utf8 text ≠ [] := by
  cases text with
  | nil => exact absurd rfl some_
  | cons c text =>
    exact append_ne_nil_of_left_ne_nil String.utf8EncodeChar_ne_nil _

theorem isIdChar_plain (good : Lexer.isIdChar u c = true) : c ≠ '\x00' ∧ c ≠ '/' ∧ c ≠ '\\' := by
  have plain := u.plain
  refine ⟨?_, ?_, ?_⟩ <;> rintro rfl
  · simp [Lexer.isIdChar, plain '\x00' (by simp)] at good
  · simp [Lexer.isIdChar, plain '/' (by simp)] at good
  · simp [Lexer.isIdChar, plain '\\' (by simp)] at good

theorem char_eq {c : Char} (same : c.toNat = d.toNat) : c = d :=
  Char.ext (UInt32.toNat_inj.mp same)

theorem utf8_plain (good : ∀ c ∈ text, Lexer.isIdChar u c = true) : 0 ∉ utf8 text := by
  intro member
  obtain ⟨c, inside, same⟩ := mem_utf8_ascii member (by decide)
  exact (isIdChar_plain (good c inside)).1 (char_eq same)

theorem utf8_no_sep (good : ∀ c ∈ text, Lexer.isIdChar u c = true) (noDot : '.' ∉ text) :
    ∀ b ∈ utf8 text, isKeySep b = false := by
  intro b member
  rw [Bool.eq_false_iff]
  intro sep
  simp only [isKeySep, Bool.or_eq_true, beq_iff_eq] at sep
  rcases sep with (rfl | rfl) | rfl
  all_goals obtain ⟨c, inside, same⟩ := mem_utf8_ascii member (by decide)
  · exact noDot (char_eq (d := '.') same ▸ inside)
  · exact (isIdChar_plain (good c inside)).2.1 (char_eq same)
  · exact (isIdChar_plain (good c inside)).2.2 (char_eq same)

theorem takeWhile_no_sep {sep : UInt8 → Bool} (plain : ∀ b ∈ part, sep b = false)
    (rest : List UInt8) (stop : ∀ c, rest.head? = some c → sep c = true) :
    (part ++ rest).takeWhile (!sep ·) = part ∧ (part ++ rest).dropWhile (!sep ·) = rest := by
  have kept : ∀ b ∈ part, (!sep b) = true := fun b member => by rw [plain b member]; rfl
  rw [takeWhile_append_of_pos kept, dropWhile_append_of_pos kept]
  cases rest with
  | nil => simp
  | cons c rest => simp [stop c rfl]

theorem componentsFrom_join (plain : ∀ part ∈ parts, part ≠ [] ∧ ∀ b ∈ part, isKeySep b = false)
    (enough : ([0x2e].intercalate parts).length ≤ fuel) :
    componentsFrom isKeySep fuel ([0x2e].intercalate parts) = parts := by
  induction parts generalizing fuel with
  | nil => cases fuel <;> rfl
  | cons part parts ih =>
    obtain ⟨some_, noSep⟩ := plain part mem_cons_self
    have start : ∀ rest, (part ++ rest).dropWhile isKeySep = part ++ rest := fun rest => by
      cases part with
      | nil => exact absurd rfl some_
      | cons b part => rw [cons_append, dropWhile_cons_of_neg (by simp [noSep b mem_cons_self])]
    cases parts with
    | nil =>
      have joined : [0x2e].intercalate [part] = part ++ [] := by simp
      rw [joined] at ⊢
      obtain ⟨taken, left⟩ := takeWhile_no_sep noSep [] nofun
      cases fuel with
      | zero => simp [some_] at enough
      | succ fuel =>
        rw [componentsFrom, if_neg (by simpa using some_), nextComponent]
        simp only [start, taken, left]
        cases fuel <;> rfl
    | cons other parts =>
      have joined : [0x2e].intercalate (part :: other :: parts) =
          part ++ 0x2e :: [0x2e].intercalate (other :: parts) := by
        simp [intercalate]
      obtain ⟨otherSome, otherSep⟩ := plain other (by simp)
      have next : ([0x2e].intercalate (other :: parts)).dropWhile isKeySep =
          [0x2e].intercalate (other :: parts) := by
        obtain ⟨b, rest, other_eq⟩ := exists_cons_of_ne_nil otherSome
        obtain ⟨more, split⟩ : ∃ more, [0x2e].intercalate (other :: parts) = b :: more := by
          cases parts <;> simp [other_eq]
        rw [split, dropWhile_cons_of_neg (by simp [otherSep b (by rw [other_eq]; exact mem_cons_self)])]
      rw [joined] at enough ⊢
      obtain ⟨taken, left⟩ := takeWhile_no_sep noSep (0x2e :: [0x2e].intercalate (other :: parts))
        (fun c same => by cases same; rfl)
      rw [length_append, length_cons] at enough
      cases fuel with
      | zero => omega
      | succ fuel =>
        rw [componentsFrom, if_neg (by simp), nextComponent]
        simp only [start, taken, left]
        rw [dropWhile_cons_of_pos (by rfl), next, ih (fun p later => plain p (mem_cons_of_mem _ later))]
        omega

theorem utf8_intercalate (parts : List Text) :
    utf8 (['.'].intercalate parts) = [0x2e].intercalate (parts.map utf8) := by
  induction parts with
  | nil => rfl
  | cons part parts ih =>
    cases parts with
    | nil => simp
    | cons other parts =>
      have left : ['.'].intercalate (part :: other :: parts) = part ++ '.' :: ['.'].intercalate (other :: parts) := by
        simp [intercalate]
      have right : [0x2e].intercalate ((part :: other :: parts).map utf8) =
          utf8 part ++ 0x2e :: [0x2e].intercalate ((other :: parts).map utf8) := by
        simp
      rw [left, right, ← ih, utf8, flatMap_append]
      rfl

theorem components_utf8 (good : ∀ c ∈ path, Lexer.isIdChar u c = true)
    (parts : ∀ part ∈ Parser.splitDots path, part ≠ []) :
    components isKeySep (utf8 path) = (Parser.splitDots path).map utf8 := by
  have whole : utf8 path = [0x2e].intercalate ((Parser.splitDots path).map utf8) := by
    rw [← utf8_intercalate, Parser.splitDots, intercalate_splitOn]
  have plain : ∀ part ∈ (Parser.splitDots path).map utf8, part ≠ [] ∧ ∀ b ∈ part, isKeySep b = false := by
    intro part member
    obtain ⟨text, inside, rfl⟩ := mem_map.mp member
    exact ⟨utf8_ne_nil (parts text inside),
      utf8_no_sep (fun c within => good c (splitDots_chars text inside c within).1) (notMem_dot inside)⟩
  rw [whole]
  exact componentsFrom_join plain (Nat.le_refl _)

end Otsos.Hivec
