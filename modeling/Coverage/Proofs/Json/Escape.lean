import Coverage.Json.Value

/-!
Escaped text reads back. Escaping writes every character on its own, so each
reader of a spelling needs one lemma for a single character: the escapes are
complete, and they stand for the characters they were written for.
-/
namespace Coverage.Json

theorem hexValue?_hexDigit : ∀ d < 16, hexValue? (hexDigit d) = some d := by decide

/-- Two hexadecimal digits are enough for a control character. -/
theorem unit?_control {n : Nat} (h : n < 0x20) :
    unit? '0' '0' (hexDigit (n / 16)) (hexDigit (n % 16)) = some n := by
  have hzero : hexValue? '0' = some 0 := by decide
  have hhigh := hexValue?_hexDigit (n / 16) (by omega)
  have hlow := hexValue?_hexDigit (n % 16) (by omega)
  simp only [unit?, hzero, hhigh, hlow, Option.bind_eq_bind, Option.bind_some, Option.some.injEq]
  omega

/-- The characters that are escaped by a letter or stand for themselves behind
the backslash. -/
theorem escapeChar_cases (c : Char) :
    (∃ d, d ≠ 'u' ∧ escapeChar c = ['\\', d] ∧ shortEscape? d = some c) ∨
    (c.toNat < 0x20 ∧ escapeChar c =
      ['\\', 'u', '0', '0', hexDigit (c.toNat / 16), hexDigit (c.toNat % 16)]) ∨
    (c ≠ '"' ∧ c ≠ '\\' ∧ 0x20 ≤ c.toNat ∧ escapeChar c = [c]) := by
  unfold escapeChar
  split
  · exact .inl ⟨'"', by decide, rfl, rfl⟩
  · exact .inl ⟨'\\', by decide, rfl, rfl⟩
  · exact .inl ⟨'b', by decide, rfl, rfl⟩
  · exact .inl ⟨'f', by decide, rfl, rfl⟩
  · exact .inl ⟨'n', by decide, rfl, rfl⟩
  · exact .inl ⟨'r', by decide, rfl, rfl⟩
  · exact .inl ⟨'t', by decide, rfl, rfl⟩
  · rename_i hquote hbackslash _ _ _ _ _
    by_cases h : c.toNat < 0x20
    · exact .inr (.inl ⟨h, by simp [h]⟩)
    · exact .inr (.inr ⟨hquote, hbackslash, by omega, by simp [h]⟩)

theorem unescapeFrom_plain {c : Char} (hc : c ≠ '\\') (read rest : List Char) :
    unescapeFrom read (c :: rest) = unescapeFrom (c :: read) rest := by
  rw [unescapeFrom.eq_def]
  split <;> grind

theorem unescapeFrom_short {d c : Char} (hd : d ≠ 'u') (h : shortEscape? d = some c)
    (read rest : List Char) :
    unescapeFrom read ('\\' :: d :: rest) = unescapeFrom (c :: read) rest := by
  rw [unescapeFrom.eq_def]
  split <;> grind

/-- A unit that is no surrogate needs no partner, whatever follows it. -/
theorem unescapeFrom_unit {a b c d : Char} {unit : Nat} (h : unit? a b c d = some unit)
    (hhigh : isHighSurrogate unit = false) (hlow : isLowSurrogate unit = false)
    (read rest : List Char) :
    unescapeFrom read ('\\' :: 'u' :: a :: b :: c :: d :: rest) =
      unescapeFrom (Char.ofNat unit :: read) rest := by
  rw [unescapeFrom.eq_def]
  split <;> grind

theorem unescapeFrom_escapeChar (c : Char) (read rest : List Char) :
    unescapeFrom read (escapeChar c ++ rest) = unescapeFrom (c :: read) rest := by
  rcases escapeChar_cases c with ⟨d, hd, hc, hshort⟩ | ⟨hcontrol, hc⟩ | ⟨_, hbackslash, _, hc⟩
  · rw [hc]
    exact unescapeFrom_short hd hshort read rest
  · have hhigh : isHighSurrogate c.toNat = false := by
      simp only [isHighSurrogate, Bool.and_eq_false_iff, decide_eq_false_iff_not]
      omega
    have hlow : isLowSurrogate c.toNat = false := by
      simp only [isLowSurrogate, Bool.and_eq_false_iff, decide_eq_false_iff_not]
      omega
    have hunit := unescapeFrom_unit (unit?_control hcontrol) hhigh hlow read rest
    rw [Char.ofNat_toNat] at hunit
    rw [hc]
    exact hunit
  · rw [hc]
    exact unescapeFrom_plain hbackslash read rest

theorem unescapeFrom_escape (text read : List Char) :
    unescapeFrom read (text.flatMap escapeChar) = some (read.reverse ++ text) := by
  induction text generalizing read with
  | nil => simp [unescapeFrom]
  | cons c rest ih =>
      rw [List.flatMap_cons, unescapeFrom_escapeChar, ih]
      simp

@[simp]
theorem unescape?_escape (text : String) : unescape? (escape text) = some text := by
  simp [unescape?, escape, unescapeFrom_escape]

theorem isSpelling_escapeChar (c : Char) (rest : List Char) :
    isSpelling (escapeChar c ++ rest) = isSpelling rest := by
  rcases escapeChar_cases c with ⟨d, hd, hc, hshort⟩ | ⟨hcontrol, hc⟩ | ⟨_, hbackslash, hplain, hc⟩
  · rw [hc, List.cons_append, List.cons_append, List.nil_append, isSpelling.eq_def]
    split <;> grind
  · have hunit := unit?_control hcontrol
    rw [hc]
    simp [isSpelling, hunit]
  · rw [hc, List.cons_append, List.nil_append, isSpelling.eq_def]
    split <;> grind

@[simp]
theorem isSpelling_escape (text : String) : isSpelling (escape text).toList = true := by
  have hchars : ∀ l : List Char, isSpelling (l.flatMap escapeChar) = true := by
    intro l
    induction l with
    | nil => rfl
    | cons c rest ih => rw [List.flatMap_cons, isSpelling_escapeChar, ih]
  simpa [escape] using hchars text.toList

/-- Digits are written as they are. -/
theorem escapeChar_of_isDigit {c : Char} (h : c.isDigit = true) : escapeChar c = [c] := by
  have hplain : ¬ c.toNat < 0x20 := by
    have hbound : 48 ≤ c.val := by simpa using (Bool.and_eq_true_iff.1 h).1
    have hnat : 48 ≤ c.toNat := UInt32.le_iff_toNat_le.1 hbound
    omega
  unfold escapeChar
  split
  all_goals first
    | exact absurd h (by decide)
    | simp [hplain]

theorem escape_toString (n : Nat) : escape (toString n) = toString n := by
  have hchars : ∀ l : List Char, (∀ c ∈ l, c.isDigit = true) → l.flatMap escapeChar = l := by
    intro l hl
    induction l with
    | nil => rfl
    | cons c rest ih =>
        rw [List.flatMap_cons, escapeChar_of_isDigit (hl c List.mem_cons_self),
          ih fun d hd => hl d (List.mem_cons_of_mem c hd), List.singleton_append]
  have hdigits := hchars (Nat.toDigits 10 n) fun c hc =>
    Nat.isDigit_of_mem_toDigits (by omega) (Nat.le_refl 10) hc
  rw [escape, Nat.toString_eq_ofList_toDigits, String.toList_ofList, hdigits]

end Coverage.Json
