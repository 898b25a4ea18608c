import Coverage.Collection
import Coverage.Proofs.Discovery.Roots
import Coverage.Proofs.Dump.Load
import Coverage.Proofs.Dump.Text
import Coverage.Proofs.Run

/-!
Collections. The dumps are loaded in path order, and each session takes the place of
an earlier one for the same file; so a run holds the sessions of the last dumps that
name their files, or the collection fails with the first dump that does not load. The
dumps are all that counts: roots that find the same dumps collect the same.
-/
namespace Coverage

/-- The runs hold sessions for the same files, and they are alike. -/
def Run.Alike (r t : Run) : Prop :=
  ∀ key, Option.Rel Session.Alike (r.sessions.find? key) (t.sessions.find? key)

theorem Run.Alike.register {r t : Run} (h : r.Alike t) {s u : Session} (hs : s.Alike u) :
    (r.register s).Alike (t.register u) := by
  intro key
  simp only [Run.register, OrderedMap.find?_insert, hs.filename]
  split
  · exact .some hs
  · exact h key

namespace Workspace

open Component (IsName)

/-- The session is that of the last dump that names its file, and is not ignored. -/
def LastNaming (w : Workspace) (f : Filter) (dumps : List Path) (s : Session) : Prop :=
  ∃ before d after, dumps = before ++ d :: after ∧ w.IsSessionOf d s ∧
    f.isIgnored w.directoryPath s.filename = false ∧
    ∀ later ∈ after, ∀ t, w.IsSessionOf later t → t.filename.components ≠ s.filename.components

/-- What a run holds that was collected from dumps which all load. -/
structure HoldsLast (w : Workspace) (f : Filter) (dumps : List Path) (r : Run) : Prop where
  ascending : r.list.Pairwise fun s t => compare s.filename t.filename = .lt
  mem_iff : ∀ s, s ∈ r.list ↔ w.LastNaming f dumps s
  named : ∀ d ∈ dumps, ∀ s, w.IsSessionOf d s → f.isIgnored w.directoryPath s.filename = false →
    ∃ t ∈ r.list, t.filename.components = s.filename.components

/-- How a collection follows from the dumps that are found. -/
structure CollectsFrom (w : Workspace) (f : Filter) (roots dumps : List Path) : Prop where
  discovered : w.discoverAll f roots = .ok dumps
  ascending : Path.Ascending dumps
  found : ∀ d ∈ dumps, ∃ root ∈ roots, d ∈ w.foundAt f root
  complete : ∀ root ∈ roots, ∀ p ∈ w.foundAt f root, ∃ d ∈ dumps, d.components = p.components
  loaded : (∀ d ∈ dumps, ∃ s, w.load d = .ok s) →
    ∃ r, w.collect f roots = .ok r ∧ w.HoldsLast f dumps r
  failed : ∀ before d after e, dumps = before ++ d :: after →
    (∀ earlier ∈ before, ∃ s, w.load earlier = .ok s) → w.load d = .error e →
    w.collect f roots = .error e

section Last

variable {w : Workspace} {f : Filter}

theorem IsSessionOf.unique {d : Path} {s t : Session} (hs : w.IsSessionOf d s)
    (ht : w.IsSessionOf d t) : s = t := by
  have hload := (w.load_eq_ok_iff d s).2 hs
  rw [(w.load_eq_ok_iff d t).2 ht] at hload
  exact (Except.ok.inj hload).symm

/-- An element of a list with one more at its end is that one, or one of the list. -/
theorem concat_split {α : Type} {l before after : List α} {a b : α}
    (h : l ++ [a] = before ++ b :: after) :
    (l = before ∧ a = b ∧ after = []) ∨ ∃ body, after = body ++ [a] ∧ l = before ++ b :: body := by
  rcases List.eq_nil_or_concat after with rfl | ⟨body, last, rfl⟩
  · obtain ⟨hl, ha⟩ := List.append_inj' h rfl
    exact .inl ⟨hl, List.singleton_inj.1 ha, rfl⟩
  · rw [List.concat_eq_append, ← List.cons_append, ← List.append_assoc] at h
    obtain ⟨hl, ha⟩ := List.append_inj' h rfl
    obtain rfl := List.singleton_inj.1 ha
    exact .inr ⟨body, List.concat_eq_append .., hl⟩

/-- One more dump adds its session, if that is not ignored, and pushes out the one
that was held for the same file. -/
theorem lastNaming_concat_iff {dumps : List Path} {d : Path} {t : Session}
    (ht : w.IsSessionOf d t) (s : Session) :
    w.LastNaming f (dumps ++ [d]) s ↔
      (s = t ∧ f.isIgnored w.directoryPath s.filename = false) ∨
        (w.LastNaming f dumps s ∧ t.filename.components ≠ s.filename.components) := by
  constructor
  · rintro ⟨before, d', after, hsplit, hs, hkept, hlast⟩
    obtain ⟨-, rfl, -⟩ | ⟨body, rfl, hdumps⟩ := concat_split hsplit
    · exact .inl ⟨hs.unique ht, hkept⟩
    · refine .inr ⟨⟨before, d', body, hdumps, hs, hkept, fun later hlater => ?_⟩, ?_⟩
      · exact hlast later (List.mem_append_left [d] hlater)
      · exact hlast d (List.mem_append_right body List.mem_cons_self) t ht
  · rintro (⟨rfl, hkept⟩ | ⟨⟨before, d', after, rfl, hs, hkept, hlast⟩, hother⟩)
    · exact ⟨dumps, d, [], rfl, ht, hkept, fun _ hlater => absurd hlater List.not_mem_nil⟩
    · refine ⟨before, d', after ++ [d], by simp, hs, hkept, fun later hlater u hu => ?_⟩
      rcases List.mem_append.1 hlater with hlater | hlater
      · exact hlast later hlater u hu
      · rw [List.mem_singleton.1 hlater] at hu
        rwa [hu.unique ht]

/-- Of two dumps of one file the later one counts. -/
theorem lastNaming_pair_iff {p q : Path} {s t : Session} (hs : w.IsSessionOf p s)
    (ht : w.IsSessionOf q t) (hsame : s.filename.components = t.filename.components)
    (hkept : f.isIgnored w.directoryPath t.filename = false) (u : Session) :
    w.LastNaming f [p, q] u ↔ u = t := by
  change w.LastNaming f ([p] ++ [q]) u ↔ u = t
  rw [lastNaming_concat_iff ht]
  constructor
  · rintro (⟨rfl, -⟩ | ⟨⟨before, d, after, hsplit, hu, -⟩, hother⟩)
    · rfl
    · have hd : d ∈ [p] := hsplit ▸ List.mem_append_right before List.mem_cons_self
      rw [List.mem_singleton.1 hd] at hu
      rw [hu.unique hs] at hother
      exact absurd hsame.symm hother
  · rintro rfl
    exact .inl ⟨rfl, hkept⟩

theorem exists_lastNaming {dumps : List Path} {d : Path} {s : Session} (hd : d ∈ dumps)
    (hs : w.IsSessionOf d s) (hkept : f.isIgnored w.directoryPath s.filename = false) :
    ∃ t, w.LastNaming f dumps t ∧ t.filename.components = s.filename.components := by
  induction dumps generalizing d s with
  | nil => exact absurd hd List.not_mem_nil
  | cons first rest ih =>
      by_cases hlater : ∃ later ∈ rest, ∃ t, w.IsSessionOf later t ∧
          t.filename.components = s.filename.components
      · obtain ⟨later, hmem, t, ht, hname⟩ := hlater
        have hkept' := (f.isIgnored_congr w.directoryPath hname).trans hkept
        obtain ⟨u, ⟨before, d', after, rfl, hu⟩, hname'⟩ := ih hmem ht hkept'
        exact ⟨u, ⟨first :: before, d', after, rfl, hu⟩, hname'.trans hname⟩
      · rcases List.mem_cons.1 hd with rfl | hd
        · refine ⟨s, ⟨[], d, rest, rfl, hs, hkept, fun later hmem t ht hname => ?_⟩, rfl⟩
          exact hlater ⟨later, hmem, t, ht, hname⟩
        · exact absurd ⟨d, hd, s, hs, rfl⟩ hlater

end Last

section Fold

variable {w : Workspace} {f : Filter}

theorem loadInto_of_ok {d : Path} {s : Session} (h : w.load d = .ok s) (r : Run) :
    w.loadInto f r d =
      .ok (if f.isIgnored w.directoryPath s.filename then r else r.register s) := by
  rw [loadInto, h]
  rfl

/-- Every session is held under the components of its name, if it is that of the last
dump which names its file. -/
def Holds (w : Workspace) (f : Filter) (dumps : List Path) (r : Run) : Prop :=
  ∀ key s, r.sessions.find? key = some s ↔ w.LastNaming f dumps s ∧ s.filename.components = key

theorem holds_empty : w.Holds f [] .empty := by
  intro key s
  refine ⟨fun h => by simp [Run.empty] at h, ?_⟩
  rintro ⟨⟨before, d, after, hsplit, -⟩, -⟩
  simp at hsplit

theorem Holds.concat {dumps : List Path} {r : Run} (h : w.Holds f dumps r) {d : Path}
    {t : Session} (ht : w.IsSessionOf d t) :
    w.Holds f (dumps ++ [d])
      (if f.isIgnored w.directoryPath t.filename then r else r.register t) := by
  intro key s
  rw [lastNaming_concat_iff ht]
  split
  · rename_i hignored
    have hne : w.LastNaming f dumps s → t.filename.components ≠ s.filename.components := by
      rintro ⟨-, -, -, -, -, hkept, -⟩ hname
      rw [f.isIgnored_congr w.directoryPath hname, hkept] at hignored
      cases hignored
    have hst : ¬ (s = t ∧ f.isIgnored w.directoryPath s.filename = false) := by
      rintro ⟨rfl, hkept⟩
      rw [hkept] at hignored
      cases hignored
    rw [or_iff_right hst, and_iff_left_of_imp hne]
    exact h key s
  · rename_i hkept
    rw [Run.register, OrderedMap.find?_insert]
    split
    · rename_i hkey
      subst hkey
      constructor
      · intro hs
        obtain rfl := Option.some.inj hs
        exact ⟨.inl ⟨rfl, by simpa using hkept⟩, rfl⟩
      · rintro ⟨⟨rfl, -⟩ | ⟨-, hne⟩, hname⟩
        · rfl
        · exact absurd hname.symm hne
    · rename_i hkey
      rw [h key s]
      constructor
      · rintro ⟨hlast, rfl⟩
        exact ⟨.inr ⟨hlast, fun hname => hkey hname.symm⟩, rfl⟩
      · rintro ⟨⟨rfl, -⟩ | ⟨hlast, -⟩, hname⟩
        · exact absurd hname.symm hkey
        · exact ⟨hlast, hname⟩

theorem foldlM_loadInto {before after : List Path} {r : Run} (h : w.Holds f before r)
    (hload : ∀ d ∈ after, ∃ s, w.load d = .ok s) :
    ∃ t, after.foldlM (w.loadInto f) r = .ok t ∧ w.Holds f (before ++ after) t := by
  induction after generalizing before r with
  | nil => exact ⟨r, rfl, by rwa [List.append_nil]⟩
  | cons d rest ih =>
      obtain ⟨s, hs⟩ := hload d List.mem_cons_self
      have hnext := h.concat ((w.load_eq_ok_iff d s).1 hs)
      obtain ⟨t, hfold, ht⟩ := ih hnext fun d' hd' => hload d' (List.mem_cons_of_mem d hd')
      refine ⟨t, ?_, by rwa [List.append_assoc] at ht⟩
      rw [List.foldlM_cons, loadInto_of_ok hs]
      exact hfold

theorem foldlM_loadInto_of_error {before after : List Path} {d : Path} {e : Failure} (r : Run)
    (hload : ∀ earlier ∈ before, ∃ s, w.load earlier = .ok s) (herror : w.load d = .error e) :
    (before ++ d :: after).foldlM (w.loadInto f) r = .error e := by
  induction before generalizing r with
  | nil =>
      rw [List.nil_append, List.foldlM_cons, loadInto, herror]
      rfl
  | cons first rest ih =>
      obtain ⟨s, hs⟩ := hload first List.mem_cons_self
      rw [List.cons_append, List.foldlM_cons, loadInto_of_ok hs]
      exact ih _ fun d' hd' => hload d' (List.mem_cons_of_mem first hd')

theorem Holds.keyed {dumps : List Path} {r : Run} (h : w.Holds f dumps r) : r.Keyed :=
  fun key s hfound => ((h key s).1 hfound).2

theorem Holds.holdsLast {dumps : List Path} {r : Run} (h : w.Holds f dumps r) :
    w.HoldsLast f dumps r := by
  have hmem : ∀ s, s ∈ r.list ↔ w.LastNaming f dumps s := fun s =>
    (h.keyed.mem_list_iff s).trans ((h s.filename.components s).trans (and_iff_left rfl))
  refine ⟨h.keyed.ascending, hmem, ?_⟩
  intro d hd s hs hkept
  obtain ⟨t, ht, hname⟩ := exists_lastNaming hd hs hkept
  exact ⟨t, (hmem t).2 ht, hname⟩

/-- Dumps of the same components are collected into runs that are alike. -/
theorem foldlM_loadInto_alike (hplain : w.tree.IsPlain) {dumps others : List Path}
    (h : dumps.map Path.components = others.map Path.components)
    (hdumps : ∀ d ∈ dumps, w.Present d) (hothers : ∀ d ∈ others, w.Present d) {r t : Run}
    (hrt : r.Alike t) :
    SameOutcome Run.Alike (dumps.foldlM (w.loadInto f) r) (others.foldlM (w.loadInto f) t) := by
  induction dumps generalizing others r t with
  | nil =>
      obtain rfl := List.map_eq_nil_iff.1 h.symm
      exact .ok hrt
  | cons d rest ih =>
      obtain ⟨d', rest', rfl, hd, hrest⟩ := List.map_eq_cons_iff.1 h.symm
      obtain ⟨place, hplace⟩ := hdumps d List.mem_cons_self
      obtain ⟨place', hplace'⟩ := hothers d' List.mem_cons_self
      rw [List.foldlM_cons, List.foldlM_cons]
      refine SameOutcome.bind (R := Run.Alike) ?_ fun r t hrt =>
        ih hrest.symm (fun q hq => hdumps q (List.mem_cons_of_mem d hq))
          (fun q hq => hothers q (List.mem_cons_of_mem d' hq)) hrt
      refine (load_alike hplain hplace hplace' hd.symm).bind fun s u hsu => ?_
      rw [f.isIgnored_congr w.directoryPath hsu.filename]
      split
      · exact .ok hrt
      · exact .ok (hrt.register hsu)

end Fold

section Roots

variable {w : Workspace} {f : Filter} {roots : List Path}

theorem present_of_mem_dumps (hplain : w.tree.IsPlain) (hroots : ∀ root ∈ roots, w.Present root)
    {d : Path} (hd : d ∈ w.dumps f roots) : w.Present d := by
  obtain ⟨root, hroot, hfound⟩ := mem_of_mem_dumps hd
  have hfile := (Bool.and_eq_true_iff.1 (takes_of_mem_foundAt hplain (hroots root hroot) hfound)).1
  rw [isFile] at hfile
  split at hfile
  · rename_i place hplace
    exact ⟨place, hplace⟩
  · cases hfile

theorem collect_eq (hroots : ∀ root ∈ roots, w.Present root) :
    w.collect f roots = (w.dumps f roots).foldlM (w.loadInto f) .empty := by
  rw [collect, discoverAll_eq hroots]
  rfl

theorem collectsFrom_dumps (hroots : ∀ root ∈ roots, w.Present root) :
    w.CollectsFrom f roots (w.dumps f roots) where
  discovered := discoverAll_eq hroots
  ascending := ascending_dumps w f roots
  found _ hd := mem_of_mem_dumps hd
  complete _ hroot _ hp := exists_mem_dumps hroot hp
  loaded hload := by
    obtain ⟨r, hfold, hr⟩ := foldlM_loadInto holds_empty hload
    exact ⟨r, (collect_eq hroots).trans hfold, hr.holdsLast⟩
  failed before d after e hsplit hload herror := by
    rw [collect_eq hroots, hsplit]
    exact foldlM_loadInto_of_error _ hload herror

/-- A collection takes the sessions of the last dumps that name their files, or fails
with the first dump that does not load. Roots in another order, or more often, or with
others below their directories collect the same, if paths of the same components are
taken for the same. The paths are spelled the same, too, where no dump is found under
two spellings and where the further roots stand behind the others. -/
theorem collect_of_present (hplain : w.tree.IsPlain) (f : Filter)
    (hroots : ∀ root ∈ roots, w.Present root) :
    (∃ dumps, w.CollectsFrom f roots dumps) ∧
    (∀ others, (∀ root ∈ roots, root ∈ others) →
      (∀ root ∈ others, w.Present root ∧ w.Covered roots root) →
      SameOutcome Run.Alike (w.collect f others) (w.collect f roots) ∧
      (w.SpelledOnce f roots → w.collect f others = w.collect f roots)) ∧
    (∀ more, (∀ root ∈ more, w.Present root ∧ w.Covered roots root) →
      w.collect f (roots ++ more) = w.collect f roots) := by
  refine ⟨⟨_, collectsFrom_dumps hroots⟩, fun others hsubset hothers => ?_, fun more hmore => ?_⟩
  · have hpresent : ∀ root ∈ others, w.Present root := fun root hroot => (hothers root hroot).1
    rw [collect_eq hpresent, collect_eq hroots]
    refine ⟨?_, fun honce => ?_⟩
    · exact foldlM_loadInto_alike hplain (map_components_dumps hplain hsubset hothers f)
        (fun d => present_of_mem_dumps hplain hpresent)
        (fun d => present_of_mem_dumps hplain hroots) fun key => .none
    · rw [dumps_eq_of_spelledOnce hplain hsubset hothers honce]
  · have hpresent : ∀ root ∈ roots ++ more, w.Present root := by
      intro root hroot
      rcases List.mem_append.1 hroot with hroot | hroot
      · exact hroots root hroot
      · exact (hmore root hroot).1
    rw [collect_eq hpresent, collect_eq hroots, dumps_append hplain hmore]

end Roots

/-- A dump of a file without nodes, of which it has the source. -/
def dumpOf (filename : Path) (source : String) : Dump :=
  ⟨filename, some source, [], none, .empty, .empty⟩

/-- The file that a dump is stored in. -/
def stored (d : Dump) : ByteArray := (d.text.toOption.getD "").toByteArray

theorem isSessionOf_stored {w : Workspace} {p base : Path} {place : Place} {filename : Path}
    {source : String} (hresolve : w.resolve p = .ok place) (hne : place ≠ [])
    (hfile : w.tree.find? place = some (.file (stored (dumpOf filename source))))
    (htext : Text.IsText filename.bytes) (hrelative : filename.isAbsolute = false)
    (hbase : p.parent? = some base) :
    ∃ s, w.IsSessionOf p s ∧ s.filename = base.join filename ∧ s.source = source := by
  obtain ⟨text, hdump⟩ := Dump.exists_text (d := dumpOf filename source) htext
  have hcontent : stored (dumpOf filename source) = text.toByteArray := by
    rw [stored, hdump]
    rfl
  have hread := readText_of_find? hresolve hne (hcontent ▸ hfile)
  have hreplay := (dumpOf filename source).replay_of_nodup base List.nodup_nil
  have hdescribes := ((dumpOf filename source).replay_eq_ok_iff _ _).1 hreplay
  refine ⟨_, ⟨text, _, hread, Dump.ofText_of_text hdump p, ?_⟩, hdescribes.filename.trans ?_, rfl⟩
  · rw [hbase]
    exact hdescribes
  · exact if_neg (by rw [dumpOf, hrelative]; exact Bool.false_ne_true)

/-- The names of two dumps, one in a directory and one in another directory within. -/
def outer : Place := [Text.bytes "a", Text.bytes "x.cov.json"]

def inner : Place := [Text.bytes "a", Text.bytes "b", Text.bytes "y.cov.json"]

/-- Two dumps of one file, each of which names it from its own directory. -/
def twice : Workspace := holding
  [(inner, stored (dumpOf "f.js" "old")), (outer, stored (dumpOf "b/f.js" "new"))]

theorem twice_isPlain : twice.tree.IsPlain := ⟨by decide +kernel, by decide +kernel⟩

theorem twice_isStored : twice.tree.IsStored :=
  ⟨by decide +kernel, by decide +kernel, by decide +kernel⟩

theorem twice_present : ∀ root ∈ [("." : Path)], twice.Present root := by
  intro root hroot
  rw [List.mem_singleton.1 hroot]
  exact ⟨[], resolve_dot rfl⟩

theorem twice_holdsFile_iff (place : Place) :
    twice.tree.HoldsFile place ↔ place = inner ∨ place = outer := by
  have hkeys : ∀ held ∈ twice.tree.entries.keys,
      twice.tree.HoldsFile held → held = inner ∨ held = outer := by decide +kernel
  constructor
  · rintro ⟨content, hfound⟩
    exact hkeys place ((OrderedMap.mem_keys_iff _ _).2 ⟨_, hfound⟩) ⟨content, hfound⟩
  · rintro (rfl | rfl) <;> decide +kernel

/-- Both dumps are found from the top. -/
theorem mem_foundAt_twice_iff (p : Path) :
    p ∈ twice.foundAt .all "." ↔ ∃ place, twice.tree.HoldsFile place ∧ p = Path.under "." place := by
  have htop : twice.resolve "." = .ok [] := resolve_dot rfl
  constructor
  · intro hp
    obtain ⟨htakes, hbelow⟩ := (mem_foundAt_iff twice_isPlain htop p).1 hp
    rw [if_pos (isDirectory_top _)] at hbelow
    obtain ⟨names, hne, hnames, -, rfl⟩ := hbelow
    have hfile := (Bool.and_eq_true_iff.1 htakes).1
    exact ⟨names, (holdsFile_of_isFile twice_isPlain htop hnames hne hfile).1, rfl⟩
  · rintro ⟨place, hplace, rfl⟩
    rw [foundAt, discover, discoverBy_eq_of_isDirectory _ _ htop (isDirectory_top _)]
    refine (mem_walk_sorted_under_iff twice_isPlain twice_isStored htop (isDirectory_top _)
      Glob.accepts .all hplace ?_).2 ?_
    · rcases (twice_holdsFile_iff place).1 hplace with rfl | rfl <;> decide +kernel
    · rcases (twice_holdsFile_iff place).1 hplace with rfl | rfl <;> decide +kernel

theorem dumps_twice {dumps : List Path} (h : twice.CollectsFrom .all ["."] dumps) :
    dumps = [("./a/b/y.cov.json" : Path), "./a/x.cov.json"] := by
  have hspelled : Path.under "." inner = "./a/b/y.cov.json" ∧ Path.under "." outer =
      "./a/x.cov.json" := by decide +kernel
  have hfound : ∀ p, p ∈ twice.foundAt .all "." ↔
      p ∈ [("./a/b/y.cov.json" : Path), "./a/x.cov.json"] := fun p => by
    simp [mem_foundAt_twice_iff, twice_holdsFile_iff, or_and_right, exists_or, hspelled]
  have honce : ∀ p ∈ [("./a/b/y.cov.json" : Path), "./a/x.cov.json"],
      ∀ q ∈ [("./a/b/y.cov.json" : Path), "./a/x.cov.json"],
        p.components = q.components → p = q := by decide +kernel
  have hlisted : ∀ d ∈ dumps, d ∈ [("./a/b/y.cov.json" : Path), "./a/x.cov.json"] := by
    intro d hd
    obtain ⟨root, hroot, hmem⟩ := h.found d hd
    rw [List.mem_singleton.1 hroot] at hmem
    exact (hfound d).1 hmem
  refine h.ascending.ext (by decide +kernel) fun p => ⟨hlisted p, fun hp => ?_⟩
  obtain ⟨d, hd, hcomponents⟩ := h.complete "." (List.mem_singleton_self _) p ((hfound p).2 hp)
  rwa [← honce d (hlisted d hd) p hp hcomponents]

theorem twice_resolve {place : Place} {p : Path} (hp : Path.under "." place = p)
    (h : twice.tree.HoldsFile place)
    (hlength : (Path.under "." place).bytes.length ≤ FileTree.maxPathBytes) :
    twice.resolve p = .ok place :=
  hp ▸ resolve_under twice_isPlain twice_isStored (resolve_dot rfl) (isDirectory_top _)
    h.choose_spec (twice_isStored.ne_nil_of_find? h.choose_spec) hlength

/-- The run holds what the later dump says of the file, which the two dumps name from different
directories, and a directory below the root adds nothing to it. -/
theorem collect_of_present_twice : twice.tree.IsPlain ∧
    (∀ root ∈ [("." : Path)], twice.Present root) ∧
    ∃ r s, twice.collect .all ["."] = .ok r ∧ twice.collect .all [".", "./a"] = .ok r ∧
      (∀ t, t ∈ r.list ↔ t = s) ∧ s.filename = "./a/b/f.js" ∧ s.source = "new" := by
  have hinner : twice.resolve "./a/b/y.cov.json" = .ok inner :=
    twice_resolve (by decide +kernel) (by decide +kernel) (by decide +kernel)
  have houter : twice.resolve "./a/x.cov.json" = .ok outer :=
    twice_resolve (by decide +kernel) (by decide +kernel) (by decide +kernel)
  have hparent : Path.parent? "./a/b/y.cov.json" = some "./a/b" ∧
      Path.parent? "./a/x.cov.json" = some "./a" := by decide +kernel
  obtain ⟨old, hold, holdName, -⟩ := isSessionOf_stored hinner (by decide +kernel) rfl
    ⟨"f.js", rfl⟩ (by decide +kernel) hparent.1
  obtain ⟨new, hnew, hnewName, hsource⟩ := isSessionOf_stored houter (by decide +kernel) rfl
    ⟨"b/f.js", rfl⟩ (by decide +kernel) hparent.2
  have hname : new.filename = "./a/b/f.js" := hnewName.trans (by decide +kernel)
  have hsame : old.filename.components = new.filename.components := by
    rw [holdName, hname]
    decide +kernel
  obtain ⟨⟨dumps, hdumps⟩, -, hmore⟩ := collect_of_present twice_isPlain .all twice_present
  obtain rfl := dumps_twice hdumps
  obtain ⟨r, hr, hlast⟩ := hdumps.loaded fun d hd => by
    rcases List.mem_pair.1 hd with rfl | rfl
    · exact ⟨old, (load_eq_ok_iff _ _ _).2 hold⟩
    · exact ⟨new, (load_eq_ok_iff _ _ _).2 hnew⟩
  have hbelow : twice.Covered ["."] "./a" := .inr ⟨".", List.mem_singleton_self _, [],
    [Text.bytes "a"], resolve_dot rfl, isDirectory_top _, by decide +kernel, by decide +kernel⟩
  have hdirectory : twice.tree.find? ([] ++ [Text.bytes "a"]) = some .directory := rfl
  have hpresent : twice.Present "./a" := ⟨_, resolve_under twice_isPlain twice_isStored
    (resolve_dot rfl) (isDirectory_top _) hdirectory (by simp) (by decide +kernel)⟩
  have hagain := hmore ["./a"] fun root hroot => by
    rw [List.mem_singleton.1 hroot]
    exact ⟨hpresent, hbelow⟩
  refine ⟨twice_isPlain, twice_present, r, new, hr, hagain.trans hr, fun t => ?_, hname, hsource⟩
  rw [hlast.mem_iff]
  exact lastNaming_pair_iff hold hnew hsame rfl t

end Workspace

end Coverage
