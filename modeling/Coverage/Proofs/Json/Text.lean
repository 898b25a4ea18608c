import Coverage.Json.Printer
import Coverage.Proofs.Json.Escape
import Coverage.Proofs.Json.Tokens
import Coverage.Proofs.Number.Decimal

/-!
Printed values read back, in every layout that only adds blanks. The tokens of a
value stand between its text and itself: scanning the text gives the tokens, and
the tokens are read as the value. A scan goes on behind a value with whatever
follows it, provided that an unquoted scalar ends there.
-/
namespace Coverage.Json

/-- The spelling is one unquoted scalar, and a number. -/
structure IsNumeral (spelling : String) : Prop where
  unended : ∀ c ∈ spelling.toList, Token.endsUnquoted c = false
  reads : (Numeral.read spelling.toList).isSome = true

theorem IsNumeral.ne_nil {spelling : String} (h : IsNumeral spelling) : spelling.toList ≠ [] := by
  intro hnil
  have hreads := h.reads
  rw [hnil] at hreads
  exact absurd hreads (by decide)

/-- None of the three words is a numeral. -/
theorem IsNumeral.unquoted?_eq {spelling : String} (h : IsNumeral spelling) :
    Token.unquoted? spelling = some (.scalar (.number spelling)) := by
  have hword : ∀ word : String, (Numeral.read word.toList).isSome = false → spelling ≠ word := by
    rintro word hnone rfl
    rw [h.reads] at hnone
    cases hnone
  obtain ⟨n, hn⟩ := Option.isSome_iff_exists.1 h.reads
  rw [Token.unquoted?, if_neg (hword "null" (by decide)), if_neg (hword "true" (by decide)),
    if_neg (hword "false" (by decide)), hn]
  rfl

theorem endsUnquoted_of_isDigit {c : Char} (h : c.isDigit = true) :
    Token.endsUnquoted c = false := by
  have hne : ∀ d : Char, d.isDigit = false → c ≠ d := by
    rintro d hd rfl
    rw [h] at hd
    cases hd
  have hmark : Token.mark? c = none := by
    unfold Token.mark?
    split
    all_goals first
      | exact absurd h (by decide)
      | rfl
  simp [Token.endsUnquoted, Token.isBlank, hmark, hne ' ' rfl, hne '\n' rfl, hne '\r' rfl,
    hne '\t' rfl, hne '"' rfl]

theorem isNumeral_toString (n : Nat) : IsNumeral (toString n) where
  unended c hc := by
    rw [Nat.toString_eq_ofList_toDigits, String.toList_ofList] at hc
    have hdigit := Nat.isDigit_of_mem_toDigits (by omega) (Nat.le_refl 10) hc
    exact endsUnquoted_of_isDigit hdigit
  reads := by
    rw [Nat.toString_eq_ofList_toDigits, String.toList_ofList, Numeral.read_toDigits]
    rfl

mutual

/-- Every string is an escaped text and every number a numeral. -/
def WellSpelled : Json → Prop
  | .number spelling => IsNumeral spelling
  | .string spelling => ∃ text, spelling = escape text
  | .array items => ItemsWellSpelled items
  | .object members => MembersWellSpelled members
  | _ => True

def ItemsWellSpelled : List Json → Prop
  | [] => True
  | item :: items => WellSpelled item ∧ ItemsWellSpelled items

def MembersWellSpelled : List (String × Json) → Prop
  | [] => True
  | (name, value) :: members =>
      (∃ text, name = escape text) ∧ WellSpelled value ∧ MembersWellSpelled members

end

/-- The layout puts nothing but blanks between the tokens. -/
structure Layout.IsBlank (l : Layout) : Prop where
  lineBreak : ∀ depth, ∀ c ∈ l.lineBreak depth, Token.isBlank c = true
  afterColon : ∀ c ∈ l.afterColon, Token.isBlank c = true

theorem prettyLayout_isBlank : prettyLayout.IsBlank where
  lineBreak depth c hc := by
    rcases List.mem_cons.1 hc with rfl | hc
    · rfl
    · rw [(List.mem_replicate.1 hc).2]
      rfl
  afterColon c hc := by
    rw [List.mem_singleton.1 hc]
    rfl

theorem compactLayout_isBlank : compactLayout.IsBlank where
  lineBreak _ _ hc := absurd hc List.not_mem_nil
  afterColon _ hc := absurd hc List.not_mem_nil

/-- What follows ends an unquoted scalar. -/
def Ended : List Char → Prop
  | [] => True
  | c :: _ => Token.endsUnquoted c = true

section Scan

open Token

theorem scan_blanks {blanks : List Char} (h : ∀ c ∈ blanks, isBlank c = true)
    (done : List Token) (rest : List Char) :
    scan .between done (blanks ++ rest) = scan .between done rest := by
  induction blanks with
  | nil => rfl
  | cons c more ih =>
      have hstart : start done c = (.between, done) := by simp [start, h c List.mem_cons_self]
      rw [List.cons_append, scan, hstart]
      exact ih fun d hd => h d (List.mem_cons_of_mem c hd)

theorem scan_mark {c : Char} {token : Token} (h : mark? c = some token)
    (done : List Token) (rest : List Char) :
    scan .between done (c :: rest) = scan .between (token :: done) rest := by
  unfold mark? at h
  split at h <;> cases h <;> rfl

theorem scan_unquoted_run {run : List Char} (h : ∀ c ∈ run, endsUnquoted c = false)
    (taken : List Char) (done : List Token) (rest : List Char) :
    scan (.unquoted taken) done (run ++ rest) =
      scan (.unquoted (run.reverse ++ taken)) done rest := by
  induction run generalizing taken with
  | nil => rfl
  | cons c more ih =>
      rw [List.cons_append, scan, if_neg (by simp [h c List.mem_cons_self]),
        ih fun d hd => h d (List.mem_cons_of_mem c hd)]
      simp

theorem unended_of_any {run : List Char} (h : run.any endsUnquoted = false) :
    ∀ c ∈ run, endsUnquoted c = false := by
  intro c hc
  simpa using List.any_eq_false.1 h c hc

/-- An unquoted scalar is taken whole, and what ends it is read as after any
other token. -/
theorem scan_unquoted {run : List Char} {token : Token} (hne : run ≠ [])
    (h : ∀ c ∈ run, endsUnquoted c = false) (htoken : unquoted? (String.ofList run) = some token)
    (done : List Token) {rest : List Char} (hrest : Ended rest) :
    scan .between done (run ++ rest) = scan .between (token :: done) rest := by
  cases run with
  | nil => exact absurd rfl hne
  | cons c more =>
      have hc := h c List.mem_cons_self
      have hstart : start done c = (.unquoted [c], done) := by
        simp only [endsUnquoted, Bool.or_eq_false_iff] at hc
        obtain ⟨⟨hblank, hquote⟩, hmark⟩ := hc
        have hnone : mark? c = none := by simpa using hmark
        simp [start, hblank, hnone, beq_eq_false_iff_ne.1 hquote]
      rw [List.cons_append, scan, hstart]
      simp only
      have hrun : (more.reverse ++ [c]).reverse = c :: more := by simp
      rw [scan_unquoted_run fun d hd => h d (List.mem_cons_of_mem c hd)]
      cases rest with
      | nil =>
          simp only [scan, hrun, htoken]
          rfl
      | cons d rest =>
          have hd : endsUnquoted d = true := hrest
          simp only [scan, hd, if_true, hrun, htoken]

theorem scan_escapeChar (c : Char) (taken : List Char) (done : List Token) (rest : List Char) :
    scan (.quoted taken) done (escapeChar c ++ rest) =
      scan (.quoted ((escapeChar c).reverse ++ taken)) done rest := by
  have hplain : ∀ (d : Char) (taken rest : List Char), d ≠ '"' → d ≠ '\\' →
      scan (.quoted taken) done (d :: rest) = scan (.quoted (d :: taken)) done rest := by
    intro d taken rest hquote hbackslash
    rw [scan, if_neg hquote, if_neg hbackslash]
  have hhex : ∀ d < 16, hexDigit d ≠ '"' ∧ hexDigit d ≠ '\\' := by decide
  rcases escapeChar_cases c with ⟨d, _, hc, _⟩ | ⟨hcontrol, hc⟩ | ⟨hquote, hbackslash, _, hc⟩
  · rw [hc]
    simp [scan]
  · have hhigh := hhex (c.toNat / 16) (by omega)
    have hlow := hhex (c.toNat % 16) (by omega)
    rw [hc]
    simp [scan, hhigh.1, hhigh.2, hlow.1, hlow.2]
  · rw [hc]
    exact hplain c taken rest hquote hbackslash

theorem scan_escape (text taken : List Char) (done : List Token) (rest : List Char) :
    scan (.quoted taken) done (text.flatMap escapeChar ++ rest) =
      scan (.quoted ((text.flatMap escapeChar).reverse ++ taken)) done rest := by
  induction text generalizing taken with
  | nil => rfl
  | cons c more ih =>
      rw [List.flatMap_cons, List.append_assoc, scan_escapeChar, ih]
      simp

theorem scan_quoted (text : String) (done : List Token) (rest : List Char) :
    scan .between done (quoted (escape text) ++ rest) =
      scan .between (.scalar (.string (escape text)) :: done) rest := by
  have hspelling : (escape text).toList = text.toList.flatMap escapeChar := by simp [escape]
  have htoken : quoted? (escape text).toList = some (.scalar (.string (escape text))) := by
    simp [quoted?]
  have hquoted : quoted (escape text) ++ rest =
      '"' :: (text.toList.flatMap escapeChar ++ '"' :: rest) := by
    simp [quoted, hspelling]
  have hopen : scan .between done (quoted (escape text) ++ rest) =
      scan (.quoted []) done (text.toList.flatMap escapeChar ++ '"' :: rest) := by
    rw [hquoted]
    rfl
  rw [hopen, scan_escape, List.append_nil, scan, if_pos rfl, List.reverse_reverse, ← hspelling,
    htoken]

end Scan

theorem ended_append {blanks : List Char} (h : ∀ c ∈ blanks, Token.isBlank c = true)
    {rest : List Char} (hrest : Ended rest) : Ended (blanks ++ rest) := by
  cases blanks with
  | nil => exact hrest
  | cons c more => simp [Ended, Token.endsUnquoted, h c List.mem_cons_self]

theorem ended_writeItems (l : Layout) (depth : Nat) (items : List Json) {rest : List Char}
    (hrest : Ended rest) : Ended (writeItems l depth items ++ rest) := by
  cases items with
  | nil => exact hrest
  | cons item items => rfl

theorem ended_writeMembers (l : Layout) (depth : Nat) (members : List (String × Json))
    {rest : List Char} (hrest : Ended rest) : Ended (writeMembers l depth members ++ rest) := by
  cases members with
  | nil => exact hrest
  | cons m members => rfl

section Written

open Token

variable {l : Layout}

mutual

theorem scan_write (hl : l.IsBlank) : ∀ (value : Json) (depth : Nat) (done : List Token)
    (rest : List Char), value.WellSpelled → Ended rest →
    scan .between done (write l depth value ++ rest) =
      scan .between ((tokens value).reverse ++ done) rest
  | .null, _, done, _, _, hrest => by
    change scan .between done ("null".toList ++ _) = scan .between (.scalar .null :: done) _
    exact scan_unquoted (by decide) (unended_of_any rfl) rfl done hrest
  | .bool true, _, done, _, _, hrest => by
    change scan .between done ("true".toList ++ _) = scan .between (.scalar (.bool true) :: done) _
    exact scan_unquoted (by decide) (unended_of_any rfl) rfl done hrest
  | .bool false, _, done, _, _, hrest => by
    change scan .between done ("false".toList ++ _) =
      scan .between (.scalar (.bool false) :: done) _
    exact scan_unquoted (by decide) (unended_of_any rfl) rfl done hrest
  | .number spelling, _, done, _, hvalue, hrest => by
    have hnumeral : IsNumeral spelling := hvalue
    have htoken : unquoted? (String.ofList spelling.toList) =
        some (.scalar (.number spelling)) := by
      rw [String.ofList_toList]
      exact hnumeral.unquoted?_eq
    change scan .between done (spelling.toList ++ _) =
      scan .between (.scalar (.number spelling) :: done) _
    exact scan_unquoted hnumeral.ne_nil hnumeral.unended htoken done hrest
  | .string _, _, done, rest, hvalue, _ => by
    obtain ⟨text, rfl⟩ : ∃ text, _ = escape text := hvalue
    exact scan_quoted text done rest
  | .array [], _, _, _, _, _ => rfl
  | .array (item :: items), depth, done, rest, hvalue, _ => by
    obtain ⟨hitem, hitems⟩ : item.WellSpelled ∧ ItemsWellSpelled items := hvalue
    have htext : write l depth (.array (item :: items)) ++ rest =
        '[' :: (l.lineBreak (depth + 1) ++ (write l (depth + 1) item ++
          (writeItems l (depth + 1) items ++ (l.lineBreak depth ++ ']' :: rest)))) := by
      simp [write]
    have hclosed : Ended (l.lineBreak depth ++ ']' :: rest) := ended_append (hl.lineBreak depth) rfl
    rw [htext, scan_mark rfl, scan_blanks (hl.lineBreak _),
      scan_write hl item _ _ _ hitem (ended_writeItems l _ items hclosed),
      scan_writeItems hl items _ _ _ hitems hclosed, scan_blanks (hl.lineBreak _), scan_mark rfl]
    simp [tokens]
  | .object [], _, _, _, _, _ => rfl
  | .object ((name, value) :: members), depth, done, rest, hvalue, _ => by
    obtain ⟨⟨text, rfl⟩, hfirst, hmembers⟩ :
      (∃ text, name = escape text) ∧ value.WellSpelled ∧ MembersWellSpelled members := hvalue
    have htext : write l depth (.object ((escape text, value) :: members)) ++ rest =
        '\x7b' :: (l.lineBreak (depth + 1) ++ (quoted (escape text) ++ ':' :: (l.afterColon ++
          (write l (depth + 1) value ++ (writeMembers l (depth + 1) members ++
            (l.lineBreak depth ++ '\x7d' :: rest)))))) := by
      simp [write]
    have hclosed : Ended (l.lineBreak depth ++ '\x7d' :: rest) :=
      ended_append (hl.lineBreak depth) rfl
    rw [htext, scan_mark rfl, scan_blanks (hl.lineBreak _), scan_quoted, scan_mark rfl,
      scan_blanks hl.afterColon,
      scan_write hl value _ _ _ hfirst (ended_writeMembers l _ members hclosed),
      scan_writeMembers hl members _ _ _ hmembers hclosed, scan_blanks (hl.lineBreak _),
      scan_mark rfl]
    simp [tokens]

theorem scan_writeItems (hl : l.IsBlank) : ∀ (items : List Json) (depth : Nat)
    (done : List Token) (rest : List Char), ItemsWellSpelled items → Ended rest →
    scan .between done (writeItems l depth items ++ rest) =
      scan .between ((itemTokens items).reverse ++ done) rest
  | [], _, _, _, _, _ => rfl
  | item :: items, depth, done, rest, hvalue, hrest => by
    obtain ⟨hitem, hitems⟩ : item.WellSpelled ∧ ItemsWellSpelled items := hvalue
    have htext : writeItems l depth (item :: items) ++ rest =
        ',' :: (l.lineBreak depth ++
          (write l depth item ++ (writeItems l depth items ++ rest))) := by
      simp [writeItems]
    rw [htext, scan_mark rfl, scan_blanks (hl.lineBreak _),
      scan_write hl item _ _ _ hitem (ended_writeItems l _ items hrest),
      scan_writeItems hl items _ _ _ hitems hrest]
    simp [itemTokens]

theorem scan_writeMembers (hl : l.IsBlank) : ∀ (members : List (String × Json)) (depth : Nat)
    (done : List Token) (rest : List Char), MembersWellSpelled members → Ended rest →
    scan .between done (writeMembers l depth members ++ rest) =
      scan .between ((memberTokens members).reverse ++ done) rest
  | [], _, _, _, _, _ => rfl
  | (name, value) :: members, depth, done, rest, hvalue, hrest => by
    obtain ⟨⟨text, rfl⟩, hfirst, hmembers⟩ :
      (∃ text, name = escape text) ∧ value.WellSpelled ∧ MembersWellSpelled members := hvalue
    have htext : writeMembers l depth ((escape text, value) :: members) ++ rest =
        ',' :: (l.lineBreak depth ++ (quoted (escape text) ++ ':' :: (l.afterColon ++
          (write l depth value ++ (writeMembers l depth members ++ rest))))) := by
      simp [writeMembers]
    rw [htext, scan_mark rfl, scan_blanks (hl.lineBreak _), scan_quoted, scan_mark rfl,
      scan_blanks hl.afterColon,
      scan_write hl value _ _ _ hfirst (ended_writeMembers l _ members hrest),
      scan_writeMembers hl members _ _ _ hmembers hrest]
    simp [memberTokens]

end

end Written

theorem ofText?_write {l : Layout} (hl : l.IsBlank) {value : Json} (h : value.WellSpelled) :
    ofText? (String.ofList (write l 0 value)) = some value := by
  have hscan := scan_write hl value 0 [] [] h trivial
  simp only [List.append_nil, Token.scan, List.reverse_reverse] at hscan
  rw [ofText?, Token.ofText?, String.toList_ofList, hscan]
  exact ofTokens?_tokens value

/-- The text of a value on many lines is read as that value. -/
theorem ofText?_pretty {value : Json} (h : value.WellSpelled) : ofText? value.pretty = some value :=
  ofText?_write prettyLayout_isBlank h

theorem ofText?_compact {value : Json} (h : value.WellSpelled) :
    ofText? value.compact = some value :=
  ofText?_write compactLayout_isBlank h

end Coverage.Json
