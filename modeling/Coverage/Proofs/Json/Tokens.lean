import Coverage.Json.Reader

/-!
Values as lists of tokens. The tokens of a value are read as that value, in front
of any other tokens; a bound of one for each token is enough.
-/
namespace Coverage.Json

mutual

/-- The tokens of a value's text. -/
def tokens : Json → List Token
  | .array [] => [.beginArray, .endArray]
  | .array (item :: items) =>
      .beginArray :: (tokens item ++ (itemTokens items ++ [.endArray]))
  | .object [] => [.beginObject, .endObject]
  | .object ((name, value) :: members) =>
      .beginObject :: .scalar (.string name) :: .colon ::
        (tokens value ++ (memberTokens members ++ [.endObject]))
  | value => [.scalar value]

def itemTokens : List Json → List Token
  | [] => []
  | item :: items => .comma :: (tokens item ++ itemTokens items)

def memberTokens : List (String × Json) → List Token
  | [] => []
  | (name, value) :: members =>
      .comma :: .scalar (.string name) :: .colon :: (tokens value ++ memberTokens members)

end

theorem tokens_head (value : Json) :
    ∃ token rest, tokens value = token :: rest ∧ token ≠ .endArray := by
  unfold tokens
  split <;> exact ⟨_, _, rfl, by simp⟩

/-- An array that does not end at once is read item by item. -/
theorem readValue_beginArray (bound : Nat) (first : Json) (rest : List Token) :
    readValue (bound + 1) (.beginArray :: (tokens first ++ rest)) =
      (readItems bound (tokens first ++ rest)).map fun (items, rest) => (.array items, rest) := by
  obtain ⟨token, more, hhead, hopen⟩ := tokens_head first
  rw [hhead, List.cons_append]
  cases token with
  | endArray => exact absurd rfl hopen
  | _ => rfl

mutual

theorem readValue_tokens : ∀ (value : Json) (bound : Nat) (rest : List Token),
    (tokens value).length ≤ bound → readValue bound (tokens value ++ rest) = some (value, rest)
  | .null, _ + 1, _, _ => rfl
  | .bool _, _ + 1, _, _ => rfl
  | .number _, _ + 1, _, _ => rfl
  | .string _, _ + 1, _, _ => rfl
  | .array [], _ + 1, _, _ => rfl
  | .array (item :: items), bound + 1, rest, h => by
    have hbound : (itemTokens (item :: items)).length ≤ bound := by
      simp only [tokens, itemTokens, List.length_cons, List.length_append, List.length_nil] at h ⊢
      omega
    have htokens : tokens (.array (item :: items)) ++ rest =
        .beginArray :: (tokens item ++ (itemTokens items ++ .endArray :: rest)) := by
      simp [tokens]
    have hitems := readItems_tokens (item :: items) bound rest (by simp) hbound
    simp only [itemTokens, List.tail_cons, List.append_assoc] at hitems
    rw [htokens, readValue_beginArray, hitems]
    rfl
  | .object [], _ + 1, _, _ => rfl
  | .object ((name, value) :: members), bound + 1, rest, h => by
    have hbound : (memberTokens ((name, value) :: members)).length ≤ bound := by
      simp only [tokens, memberTokens, List.length_cons, List.length_append, List.length_nil] at h ⊢
      omega
    have htokens : tokens (.object ((name, value) :: members)) ++ rest =
        .beginObject :: .scalar (.string name) :: .colon ::
          (tokens value ++ (memberTokens members ++ .endObject :: rest)) := by
      simp [tokens]
    have hmembers := readMembers_tokens ((name, value) :: members) bound rest (by simp) hbound
    simp only [memberTokens, List.tail_cons, List.cons_append, List.append_assoc] at hmembers
    rw [htokens, readValue, hmembers]
    · rfl
    · simp

/-- What follows the first comma are the items and the end. -/
theorem readItems_tokens : ∀ (items : List Json) (bound : Nat) (rest : List Token),
    items ≠ [] → (itemTokens items).length ≤ bound →
    readItems bound ((itemTokens items).tail ++ .endArray :: rest) = some (items, rest)
  | [], _, _, hne, _ => absurd rfl hne
  | [item], bound + 1, rest, _, h => by
    have hbound : (tokens item).length ≤ bound := by
      simp only [itemTokens, List.length_cons, List.length_append] at h
      omega
    have htokens : (itemTokens [item]).tail ++ .endArray :: rest =
        tokens item ++ .endArray :: rest := by
      simp [itemTokens]
    rw [htokens, readItems, readValue_tokens item bound _ hbound]
  | item :: next :: items, bound + 1, rest, _, h => by
    have hbound : (tokens item).length ≤ bound ∧ (itemTokens (next :: items)).length ≤ bound := by
      simp only [itemTokens, List.length_cons, List.length_append] at h ⊢
      omega
    have htokens : (itemTokens (item :: next :: items)).tail ++ .endArray :: rest =
        tokens item ++ .comma :: ((itemTokens (next :: items)).tail ++ .endArray :: rest) := by
      simp [itemTokens]
    rw [htokens, readItems, readValue_tokens item bound _ hbound.1]
    simp only [readItems_tokens (next :: items) bound rest (by simp) hbound.2, Option.map_some]

theorem readMembers_tokens : ∀ (members : List (String × Json)) (bound : Nat) (rest : List Token),
    members ≠ [] → (memberTokens members).length ≤ bound →
    readMembers bound ((memberTokens members).tail ++ .endObject :: rest) = some (members, rest)
  | [], _, _, hne, _ => absurd rfl hne
  | [(name, value)], bound + 1, rest, _, h => by
    have hbound : (tokens value).length ≤ bound := by
      simp only [memberTokens, List.length_cons, List.length_append] at h
      omega
    have htokens : (memberTokens [(name, value)]).tail ++ .endObject :: rest =
        .scalar (.string name) :: .colon :: (tokens value ++ .endObject :: rest) := by
      simp [memberTokens]
    rw [htokens, readMembers, readValue_tokens value bound _ hbound]
  | (name, value) :: next :: members, bound + 1, rest, _, h => by
    have hbound : (tokens value).length ≤ bound ∧
        (memberTokens (next :: members)).length ≤ bound := by
      simp only [memberTokens, List.length_cons, List.length_append] at h ⊢
      omega
    have htokens : (memberTokens ((name, value) :: next :: members)).tail ++ .endObject :: rest =
        .scalar (.string name) :: .colon ::
          (tokens value ++
            .comma :: ((memberTokens (next :: members)).tail ++ .endObject :: rest)) := by
      simp [memberTokens]
    rw [htokens, readMembers, readValue_tokens value bound _ hbound.1]
    simp only [readMembers_tokens (next :: members) bound rest (by simp) hbound.2, Option.map_some]

end

theorem ofTokens?_tokens (value : Json) : ofTokens? (tokens value) = some value := by
  have hread := readValue_tokens value ((tokens value).length + 1) [] (by omega)
  rw [List.append_nil] at hread
  rw [ofTokens?, hread]

end Coverage.Json
