import Coverage.Json.Record
import Coverage.Proofs.Json.Text

/-!
Typed readings of written values. A word, a text, a list and a record of
distinct names are read back as what they were written from, and what is written
of them is well spelled.
-/
namespace Coverage.Json

theorem read_word (n : UInt64) :
    (Numeral.read (toString n.toNat).toList).bind Numeral.toWord? = some n := by
  rw [Nat.toString_eq_ofList_toDigits, String.toList_ofList, Numeral.read_toDigits]
  exact Numeral.toWord?_whole n

@[simp]
theorem word?_ofWord (n : UInt64) : (ofWord n).word? = some n := read_word n

@[simp]
theorem keyWord?_toString (n : UInt64) : keyWord? (toString n) = some n := read_word n

@[simp]
theorem text?_ofText (text : String) : (ofText text).text? = some text := unescape?_escape text

/-- A word is held at any depth. -/
@[simp]
theorem canBeHeld_ofWord (depth : Nat) (n : UInt64) : (ofWord n).canBeHeld depth = true := by
  have hread : Numeral.read (toString n.toNat).toList = some ⟨false, n.toNat, 0, true⟩ := by
    rw [Nat.toString_eq_ofList_toDigits, String.toList_ofList, Numeral.read_toDigits]
  simp only [ofWord, ofNat, canBeHeld, hread, Option.any_some, Numeral.toWord?_whole,
    Option.isSome_some, Bool.true_or]

@[simp]
theorem wellSpelled_ofWord (n : UInt64) : (ofWord n).WellSpelled := isNumeral_toString n.toNat

@[simp]
theorem wellSpelled_ofText (text : String) : (ofText text).WellSpelled := ⟨text, rfl⟩

theorem wellSpelled_array {items : List Json} (h : ∀ item ∈ items, item.WellSpelled) :
    (array items).WellSpelled := by
  rw [WellSpelled]
  induction items with
  | nil => trivial
  | cons item items ih =>
      exact ⟨h item List.mem_cons_self, ih fun i hi => h i (List.mem_cons_of_mem item hi)⟩

@[simp]
theorem wellSpelled_texts (texts : List String) : (array (texts.map ofText)).WellSpelled := by
  refine wellSpelled_array fun item hitem => ?_
  obtain ⟨text, -, rfl⟩ := List.mem_map.1 hitem
  exact wellSpelled_ofText text

theorem wellSpelled_record {members : List (String × Json)}
    (h : ∀ m ∈ members, m.2.WellSpelled) : (record members).WellSpelled := by
  rw [record, WellSpelled]
  induction members with
  | nil => trivial
  | cons m members ih =>
      refine ⟨⟨m.1, rfl⟩, h m List.mem_cons_self, ?_⟩
      exact ih fun n hn => h n (List.mem_cons_of_mem m hn)

theorem mapM_map_eq_some {α β γ : Type} (write : α → β) (read : β → Option γ) (kept : α → γ)
    {l : List α} (h : ∀ a ∈ l, read (write a) = some (kept a)) :
    (l.map write).mapM read = some (l.map kept) := by
  induction l with
  | nil => rfl
  | cons a rest ih =>
      rw [List.map_cons, List.mapM_cons, h a List.mem_cons_self,
        ih fun b hb => h b (List.mem_cons_of_mem a hb)]
      rfl

theorem list?_map {α : Type} {write : α → Json} {read : Json → Option α}
    (h : ∀ a, read (write a) = some a) (l : List α) :
    list? read (.array (l.map write)) = some l := by
  rw [list?, mapM_map_eq_some write read id fun a _ => h a, List.map_id]

@[simp]
theorem named?_record (members : Fields) : named? (record members) = some members := by
  rw [record, named?, mapM_map_eq_some _ _ id fun m _ => ?_, List.map_id]
  simp

namespace Fields

variable {α : Type} (name wanted : String) (value : Json) (rest : Fields)

@[simp]
theorem lookup_cons : List.lookup wanted ((name, value) :: rest) =
    if wanted = name then some value else rest.lookup wanted := by
  by_cases h : wanted = name
  · simp [h]
  · simp [List.lookup_cons, beq_eq_false_iff_ne.2 h, h]

@[simp]
theorem required?_cons (read : Json → Option α) :
    required? ((name, value) :: rest) wanted read =
      if wanted = name then read value else required? rest wanted read := by
  rw [required?, lookup_cons]
  split <;> rfl

@[simp]
theorem defaulted?_nil (read : Json → Option α) (default : α) :
    defaulted? [] wanted read default = some default := rfl

@[simp]
theorem defaulted?_cons (read : Json → Option α) (default : α) :
    defaulted? ((name, value) :: rest) wanted read default =
      if wanted = name then read value else defaulted? rest wanted read default := by
  by_cases h : wanted = name <;> simp [defaulted?, h]

end Fields

theorem eraseDups_of_nodup {names : List String} (h : names.Nodup) : names.eraseDups = names := by
  induction names with
  | nil => rfl
  | cons name rest ih =>
      obtain ⟨hname, hrest⟩ := List.nodup_cons.1 h
      have hfilter : rest.filter (fun b => !b == name) = rest := by
        refine List.filter_eq_self.2 fun b hb => ?_
        have hne : b ≠ name := fun he => hname (he ▸ hb)
        simpa using hne
      rw [List.eraseDups_cons, hfilter, ih hrest]

/-- Of distinct members all that are known are selected. -/
theorem select?_of_nodup (names : List String) {fields : Fields}
    (h : (fields.map (·.1)).Nodup) :
    select? names fields = some (fields.filter fun f => names.contains f.1) := by
  have hknown : ((fields.filter fun f => names.contains f.1).map (·.1)).Nodup :=
    h.sublist (List.filter_sublist.map _)
  have hrepeated : isRepeated ((fields.filter fun f => names.contains f.1).map (·.1)) = false := by
    rw [isRepeated, eraseDups_of_nodup hknown, bne_self_eq_false]
  rw [select?, hrepeated]
  rfl

theorem fields?_record {names : List String} {members : Fields}
    (hnodup : (members.map (·.1)).Nodup) (hknown : ∀ m ∈ members, m.1 ∈ names) :
    fields? names (record members) = some members := by
  have hall : members.filter (fun f => names.contains f.1) = members :=
    List.filter_eq_self.2 fun m hm => by simpa using hknown m hm
  change (named? (record members)).bind (select? names) = some members
  rw [named?_record, Option.bind_some, select?_of_nodup names hnodup, hall]

end Coverage.Json
