import Coverage.Report
import Mathlib.Data.List.DropRight

/-!
Reports that are asked for their text while files are still added. A table and a JSON
list have all files so far in every text. A plain listing gives each file away once, in
the text of the next finish, so that its texts one behind the other are the text of a
report that is finished only at the end.
-/
namespace Coverage.Report

inductive Call where
  | add (filename : String) (snapshot : Snapshot)
  | finish

namespace Call

def isFinish : Call → Bool
  | add _ _ => false
  | finish => true

def file? : Call → Option (String × Snapshot)
  | add filename snapshot => some (filename, snapshot)
  | finish => none

end Call

def files (calls : List Call) : List (String × Snapshot) := calls.filterMap Call.file?

def finishes (calls : List Call) : Nat := calls.countP Call.isFinish

/-- What is left of the report. -/
def call (r : Report) : Call → Report
  | .add filename s => r.add filename s
  | .finish => r.finish.2

def callAll (r : Report) (calls : List Call) : Report := calls.foldl call r

/-- What the finishes return, one after the other. -/
def texts (r : Report) : List Call → List String
  | [] => []
  | .add filename s :: rest => (r.add filename s).texts rest
  | .finish :: rest => r.finish.1 :: r.finish.2.texts rest

/-- The files in the text of a finish behind the calls. -/
def reported (kind : ReportKind) (calls : List Call) : List (String × Snapshot) :=
  match kind with
  | .table | .json => files calls
  | .plain => files (calls.rtakeWhile fun c => !c.isFinish)

theorem callAll_concat (r : Report) (calls : List Call) (c : Call) :
    r.callAll (calls ++ [c]) = (r.callAll calls).call c :=
  List.foldl_concat ..

theorem texts_append (r : Report) (first next : List Call) :
    r.texts (first ++ next) = r.texts first ++ (r.callAll first).texts next := by
  induction first generalizing r with
  | nil => rfl
  | cons c rest ih =>
      cases c with
      | add filename s => exact ih (r.add filename s)
      | finish => exact congrArg (List.cons r.finish.1) (ih r.finish.2)

theorem length_texts (r : Report) (calls : List Call) :
    (r.texts calls).length = finishes calls := by
  induction calls generalizing r with
  | nil => rfl
  | cons c rest ih =>
      cases c with
      | add filename s => exact ih (r.add filename s)
      | finish =>
          rw [finishes, List.countP_cons_of_pos rfl]
          exact congrArg Nat.succ (ih r.finish.2)

/-- The text of a finish is that of the report as the calls before it left it. -/
theorem getElem?_texts (r : Report) (before after : List Call) :
    (r.texts (before ++ .finish :: after))[finishes before]? = some (r.callAll before).finish.1 := by
  rw [texts_append, ← length_texts r before, List.getElem?_append_right (Nat.le_refl _),
    Nat.sub_self]
  rfl

theorem addAll_concat (r : Report) (files : List (String × Snapshot)) (f : String × Snapshot) :
    r.addAll (files ++ [f]) = (r.addAll files).add f.1 f.2 :=
  List.foldl_concat ..

theorem kind_addAll (r : Report) (files : List (String × Snapshot)) :
    (r.addAll files).kind = r.kind := by
  induction files generalizing r with
  | nil => rfl
  | cons f rest ih => cases r <;> exact ih _

theorem finish_snd (r : Report) : r.finish.2 = if r.kind = .plain then start .plain else r := by
  cases r <;> rfl

theorem reported_concat_add (kind : ReportKind) (calls : List Call) (filename : String)
    (s : Snapshot) :
    reported kind (calls ++ [.add filename s]) = reported kind calls ++ [(filename, s)] := by
  cases kind with
  | table | json => exact List.filterMap_append
  | plain =>
      have hopen : (calls ++ [Call.add filename s]).rtakeWhile (fun c => !c.isFinish) =
          calls.rtakeWhile (fun c => !c.isFinish) ++ [.add filename s] := by
        rw [List.rtakeWhile_concat]
        rfl
      simp only [reported, hopen]
      exact List.filterMap_append

theorem reported_concat_finish (kind : ReportKind) (calls : List Call) :
    reported kind (calls ++ [.finish]) = if kind = .plain then [] else reported kind calls := by
  cases kind with
  | table | json => exact List.filterMap_append.trans (List.append_nil _)
  | plain =>
      have hclosed : (calls ++ [Call.finish]).rtakeWhile (fun c => !c.isFinish) = [] := by
        rw [List.rtakeWhile_concat]
        rfl
      simp only [reported, hclosed]
      rfl

/-- Whatever was called, the report stands as if it had been given afresh the files that
are still to be reported. -/
theorem callAll_start (kind : ReportKind) (calls : List Call) :
    (start kind).callAll calls = (start kind).addAll (reported kind calls) := by
  induction calls using List.reverseRecOn with
  | nil => cases kind <;> rfl
  | append_singleton calls c ih =>
      rw [callAll_concat, ih]
      cases c with
      | add filename s =>
          rw [reported_concat_add, addAll_concat]
          rfl
      | finish =>
          have hkind : ((start kind).addAll (reported kind calls)).kind = kind := by
            rw [kind_addAll]
            cases kind <;> rfl
          rw [call, finish_snd, hkind, reported_concat_finish]
          split
          · rename_i hplain
            rw [hplain]
            rfl
          · rfl

/-- The listings one behind the other. -/
def listings (files : List (String × Snapshot)) : String :=
  String.join (files.map fun f => (Listing.mk f.1 f.2).text)

theorem listings_cons (f : String × Snapshot) (files : List (String × Snapshot)) :
    listings (f :: files) = (Listing.mk f.1 f.2).text ++ listings files :=
  String.join_cons

theorem addAll_plain (text : String) (files : List (String × Snapshot)) :
    (plain text).addAll files = plain (text ++ listings files) := by
  induction files generalizing text with
  | nil => simp [addAll, listings]
  | cons f rest ih =>
      rw [listings_cons, ← String.append_assoc]
      exact ih _

theorem join_texts_plain (text : String) (calls : List Call) :
    String.join ((plain text).texts (calls ++ [.finish])) = text ++ listings (files calls) := by
  induction calls generalizing text with
  | nil => simp [texts, finish, listings, files]
  | cons c rest ih =>
      cases c with
      | add filename s =>
          show _ = text ++ listings ((filename, s) :: files rest)
          rw [listings_cons, ← String.append_assoc]
          exact ih _
      | finish =>
          rw [List.cons_append, texts, String.join_cons]
          exact congrArg (text ++ ·) ((ih "").trans (String.empty_append))

/-- Every finish returns what a fresh report would return for the files that are still
to be reported, and a plain report returns every file once. -/
theorem texts_interleaved :
    (∀ kind calls, ((start kind).texts calls).length = finishes calls) ∧
      (∀ kind before after, ((start kind).texts (before ++ .finish :: after))[finishes before]? =
        some ((start kind).addAll (reported kind before)).finish.1) ∧
      (∀ files, ((start .plain).addAll files).finish.1 = listings files) ∧
      ∀ calls, String.join ((start .plain).texts (calls ++ [.finish])) =
        ((start .plain).addAll (files calls)).finish.1 := by
  refine ⟨fun kind calls => ?_, fun kind before after => ?_, fun files => ?_, fun calls => ?_⟩
  · exact length_texts (start kind) calls
  · rw [getElem?_texts, callAll_start]
  · rw [start, addAll_plain]
    exact String.empty_append
  · rw [start, join_texts_plain, addAll_plain]
    rfl

end Coverage.Report
