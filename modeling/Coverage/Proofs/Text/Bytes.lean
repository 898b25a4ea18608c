import Coverage.Text.Bytes

/-!
Texts by their bytes. A text is got back from its bytes, so texts with the same bytes are equal,
and the order of texts is the order of their bytes: of two characters the one with the smaller
code point has the smaller bytes where the two encodings first differ, and neither encoding
begins with the other one.
-/
namespace Coverage.Text

@[simp]
theorem bytes_append (s t : String) : bytes (s ++ t) = bytes s ++ bytes t := by
  simp [bytes, String.toList_append]

theorem opening_single {n : Nat} (h : n < 0x80) :
    opening (.ofNat n) = ([Char.ofNat n], none) := by
  revert h n
  decide +kernel

theorem opening_pair {n : Nat} (h : n < 32) (hshort : 2 ≤ n) :
    opening (.ofNat (n + 0xc0)) = ([], some ⟨n, 0, 0x80, 0xbf⟩) := by
  revert h n
  decide +kernel

theorem opening_triple {n : Nat} (h : n < 16) :
    opening (.ofNat (n + 0xe0)) =
      ([], some ⟨n, 1, if n = 0 then 0xa0 else 0x80, if n = 13 then 0x9f else 0xbf⟩) := by
  revert h n
  decide +kernel

theorem opening_quadruple {n : Nat} (h : n < 5) :
    opening (.ofNat (n + 0xf0)) =
      ([], some ⟨n, 2, if n = 0 then 0x90 else 0x80, if n = 4 then 0x8f else 0xbf⟩) := by
  revert h n
  decide +kernel

theorem decode_next {bits after n : Nat} {low high : UInt8} (h : n < 64)
    (hlow : low.toNat ≤ n + 0x80) (hhigh : n + 0x80 ≤ high.toNat) (rest : Bytes) :
    decode (some ⟨bits, after, low, high⟩) (.ofNat (n + 0x80) :: rest) =
      match after with
      | 0 => Char.ofNat (bits * 64 + n) :: decode none rest
      | after + 1 => decode (some ⟨bits * 64 + n, after, 0x80, 0xbf⟩) rest := by
  have hbyte : (UInt8.ofNat (n + 0x80)).toNat = n + 0x80 := by
    rw [UInt8.toNat_ofNat']
    omega
  have hbits : (n + 0x80) % 64 = n := by omega
  have hfits : low ≤ .ofNat (n + 0x80) ∧ .ofNat (n + 0x80) ≤ high := by
    rw [UInt8.le_iff_toNat_le, UInt8.le_iff_toNat_le, hbyte]
    exact ⟨hlow, hhigh⟩
  rw [decode, read, if_pos hfits, Pending.take, hbyte, hbits]
  cases after <;> rfl

theorem decode_inner {bits after n : Nat} (h : n < 64) (rest : Bytes) :
    decode (some ⟨bits, after, 0x80, 0xbf⟩) (.ofNat (n + 0x80) :: rest) =
      match after with
      | 0 => Char.ofNat (bits * 64 + n) :: decode none rest
      | after + 1 => decode (some ⟨bits * 64 + n, after, 0x80, 0xbf⟩) rest :=
  decode_next h (Nat.le_add_left _ _) (Nat.add_le_add_right (Nat.le_of_lt_succ h) _) rest

theorem decode_opening {b : UInt8} {p : Pending} (h : opening b = ([], some p)) (rest : Bytes) :
    decode none (b :: rest) = decode (some p) rest := by
  rw [decode, read, h]
  rfl

/-- A character's bytes are read as the character, whatever follows. -/
theorem decode_encode_append (c : Char) (rest : Bytes) :
    decode none (String.utf8EncodeChar c ++ rest) = c :: decode none rest := by
  have hc : Char.ofNat c.val.toNat = c := c.ofNat_toNat
  have hvalid : c.val.toNat < 0xd800 ∨ 0xdfff < c.val.toNat ∧ c.val.toNat < 0x110000 := c.valid
  unfold String.utf8EncodeChar
  simp only
  generalize c.val.toNat = v at *
  split
  · rw [List.singleton_append, decode, read, opening_single (by omega), hc]
    rfl
  · split
    · have hbits : v / 64 % 32 * 64 + v % 64 = v := by omega
      rw [List.cons_append, decode_opening (opening_pair (by omega) (by omega)),
        List.singleton_append, decode_inner (by omega)]
      simp only [hbits, hc]
    · split
      · have hbits : (v / 4096 % 16 * 64 + v / 64 % 64) * 64 + v % 64 = v := by omega
        rw [List.cons_append, decode_opening (opening_triple (by omega)), List.cons_append,
          decode_next (by omega) (by split <;> simp; omega) (by split <;> (simp; omega))]
        simp only [List.singleton_append]
        rw [decode_inner (by omega)]
        simp only [hbits, hc]
      · have hbits : ((v / 262144 % 8 * 64 + v / 4096 % 64) * 64 + v / 64 % 64) * 64 + v % 64 =
            v := by omega
        rw [List.cons_append, decode_opening (opening_quadruple (by omega)), List.cons_append,
          decode_next (by omega) (by split <;> simp; omega) (by split <;> (simp; omega))]
        simp only [List.cons_append]
        rw [decode_inner (by omega)]
        simp only [List.nil_append]
        rw [decode_inner (by omega)]
        simp only [hbits, hc]

theorem decode_bytes (text : String) : decode none (bytes text) = text.toList := by
  rw [bytes]
  induction text.toList with
  | nil => rfl
  | cons c rest ih => rw [List.flatMap_cons, decode_encode_append, ih]

@[simp]
theorem readable_bytes (text : String) : readable (bytes text) = text := by
  rw [readable, decode_bytes, String.ofList_toList]

@[simp]
theorem bytes_inj {s t : String} : bytes s = bytes t ↔ s = t := by
  refine ⟨fun h => ?_, fun h => h ▸ rfl⟩
  rw [← readable_bytes s, h, readable_bytes]

/-- The bytes encode a text. -/
def IsText (b : Bytes) : Prop := ∃ text, bytes text = b

/-- A text can be read exactly from its own bytes. -/
theorem ofBytes?_eq_some_iff (b : Bytes) (text : String) :
    ofBytes? b = some text ↔ bytes text = b := by
  rw [ofBytes?]
  constructor
  · intro h
    split at h
    · rename_i hbytes
      cases h
      exact hbytes
    · cases h
  · rintro rfl
    rw [readable_bytes, if_pos rfl]

@[simp]
theorem ofBytes?_bytes (text : String) : ofBytes? (bytes text) = some text :=
  (ofBytes?_eq_some_iff _ _).2 rfl

theorem isText_iff (b : Bytes) : IsText b ↔ (ofBytes? b).isSome = true := by
  simp only [IsText, Option.isSome_iff_exists, ofBytes?_eq_some_iff]

instance (b : Bytes) : Decidable (IsText b) := decidable_of_iff' _ (isText_iff b)

/-- A dot leads the bytes of just those texts that it leads. -/
theorem startsWith_dot_iff (text : String) :
    text.startsWith "." = true ↔ (bytes text).head? = some 0x2e := by
  have hdot : ".".toList = ['.'] := rfl
  rw [String.startsWith_string_iff, hdot]
  constructor
  · rintro ⟨rest, hrest⟩
    rw [bytes, ← hrest]
    rfl
  · intro h
    obtain ⟨rest, hrest⟩ := List.head?_eq_some_iff.1 h
    refine ⟨decode none rest, ?_⟩
    rw [← decode_bytes text, hrest]
    rfl

theorem toNat_lt (c : Char) : c.val.toNat < 0x110000 := by
  rcases c.valid with h | h <;> omega

/-- The bytes of a smaller character are smaller, whatever follows. -/
theorem encode_append_lt {c d : Char} (h : c < d) (s t : List UInt8) :
    String.utf8EncodeChar c ++ s < String.utf8EncodeChar d ++ t := by
  have hlt : c.val.toNat < d.val.toNat := h
  have hd := toNat_lt d
  unfold String.utf8EncodeChar
  simp only
  generalize c.val.toNat = v at *
  generalize d.val.toNat = w at *
  -- In base 64, which gives the bytes behind the first one, the smaller number comes first.
  have hdigits : v / 262144 < w / 262144 ∨ v / 262144 = w / 262144 ∧
      (v / 4096 % 64 < w / 4096 % 64 ∨ v / 4096 % 64 = w / 4096 % 64 ∧
        (v / 64 % 64 < w / 64 % 64 ∨ v / 64 % 64 = w / 64 % 64 ∧ v % 64 < w % 64)) := by
    omega
  repeat' split
  all_goals
    simp only [List.cons_append, List.nil_append, List.cons_lt_cons_iff, UInt8.lt_iff_toNat_lt,
      ← UInt8.toNat_inj, UInt8.toNat_ofNat']
    simp (disch := omega) only [Nat.mod_eq_of_lt]
    omega

theorem encode_lt {l m : List Char} (h : l < m) :
    l.flatMap String.utf8EncodeChar < m.flatMap String.utf8EncodeChar := by
  induction l generalizing m with
  | nil =>
      cases m with
      | nil => exact absurd h (List.lt_irrefl [])
      | cons d m =>
          rw [List.flatMap_cons]
          cases hd : String.utf8EncodeChar d with
          | nil => exact absurd hd String.utf8EncodeChar_ne_nil
          | cons b rest => exact List.nil_lt_cons ..
  | cons c l ih =>
      cases m with
      | nil => exact absurd h (List.not_lt_nil _)
      | cons d m =>
          rw [List.flatMap_cons, List.flatMap_cons]
          rcases List.cons_lt_cons_iff.1 h with hlt | ⟨rfl, hrest⟩
          · exact encode_append_lt hlt _ _
          · exact List.append_left_lt (ih hrest)

/-- Texts stand in the order of their bytes. -/
theorem lt_iff_bytes_lt (s t : String) : s < t ↔ bytes s < bytes t := by
  rw [bytes, bytes]
  constructor
  · exact encode_lt
  · intro hlt
    by_cases hst : s.toList < t.toList
    · exact hst
    · rcases List.le_iff_lt_or_eq.1 (List.not_lt.1 hst) with h | h
      · exact absurd (encode_lt h) (List.lt_asymm hlt)
      · rw [h] at hlt
        exact absurd hlt (List.lt_irrefl _)

theorem le_iff_bytes_le (s t : String) : s ≤ t ↔ bytes s ≤ bytes t :=
  not_congr (lt_iff_bytes_lt t s)

end Coverage.Text
