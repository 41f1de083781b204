import SchemaLift.Proofs.Definition.NameLine

/-!
# All name statements at once

The edits are carried out from the bottom up, each on the text as it stands by then. If no line is
claimed by two classes, the outcome is that of one pass over the lines (`foldlM_upwards`).
-/

namespace SchemaLift.NameStatement

/-! ## One pass over the lines -/

section

variable (ls : List Line) (edits : List NameEdit)

/-- Whether the line right above opens a class. -/
def underHeader : Nat → Bool
  | 0 => false
  | index + 1 => (ls[index]?.bind ClassHeader.parse?).isSome

/-- Whether the line right above is deleted and stands under a class header, or under another deleted
line of which this holds. A blank line there would be left under the header. -/
def hangs : Nat → Bool
  | 0 => false
  | index + 1 => edits.contains (.delete index) && (underHeader ls index || hangs index)

/-- What becomes of a line. -/
def fate (entry : Line × Nat) : List Line :=
  if edits.contains (.delete entry.2) then []
  else if edits.contains (.rename entry.2) then [renamed entry.1]
  else if hangs ls edits entry.2 && Text.isBlank entry.1 then []
  else [entry.1]

/-- The lines from `index` on after all edits. -/
def editedFrom (index : Nat) : List Line := ((ls.drop index).zipIdx index).flatMap (fate ls edits)

def edited : List Line := editedFrom ls edits 0

/-- Every edit is that of a name statement. -/
def AtNames : Prop := ∀ e ∈ edits, ∃ line, ls[e.index]? = some line ∧ (parse? line).isSome = true

end

section

variable {ls ls' : List Line} {edits edits' : List NameEdit} {index : Nat}

/-- A line goes, is renamed, or stays, which no line of an edit does. -/
theorem fate_cases (edits : List NameEdit) (line : Line) (index : Nat) :
    fate ls edits (line, index) = [] ∨
      (.rename index ∈ edits ∧ fate ls edits (line, index) = [renamed line]) ∨
      ((∀ edit ∈ edits, edit.index ≠ index) ∧ fate ls edits (line, index) = [line]) := by
  unfold fate
  simp only
  split
  · exact .inl rfl
  rename_i hdelete
  split
  · rename_i hrename
    exact .inr (.inl ⟨List.contains_iff_mem.1 hrename, rfl⟩)
  rename_i hrename
  split
  · exact .inl rfl
  refine .inr (.inr ⟨fun edit hedit hindex => ?_, rfl⟩)
  rw [List.contains_iff_mem] at hdelete hrename
  cases edit with
  | delete _ => exact hdelete (hindex ▸ hedit)
  | rename _ => exact hrename (hindex ▸ hedit)

theorem editedFrom_of_lt (h : index < ls.length) : editedFrom ls edits index =
    fate ls edits (ls[index], index) ++ editedFrom ls edits (index + 1) := by
  unfold editedFrom
  rw [List.drop_eq_getElem_cons h, List.zipIdx_cons, List.flatMap_cons]

theorem editedFrom_of_le (h : ls.length ≤ index) : editedFrom ls edits index = [] := by
  unfold editedFrom
  rw [List.drop_of_length_le h]
  rfl

theorem underHeader_congr (h : ls.take index = ls'.take index) :
    underHeader ls index = underHeader ls' index := by
  cases index with
  | zero => rfl
  | succ index =>
    have hget := congrArg (·[index]?) h
    simp only [List.getElem?_take_of_lt (Nat.lt_succ_self index)] at hget
    rw [underHeader, underHeader, hget]

/-! ## Edits further down -/

/-- Above all edits no blank line would be left. -/
theorem hangs_of_le (h : ∀ e ∈ edits, index ≤ e.index) : hangs ls edits index = false := by
  cases index with
  | zero => rfl
  | succ index =>
    rw [hangs, Bool.and_eq_false_iff]
    refine .inl (Bool.eq_false_iff.2 fun hmem => ?_)
    have hle : index + 1 ≤ index := h _ (List.contains_iff_mem.1 hmem)
    omega

theorem contains_of_lt (h : ∀ e ∈ edits, index < e.index) {e : NameEdit} (he : e.index ≤ index) :
    edits.contains e = false := by
  rw [Bool.eq_false_iff]
  intro hmem
  have := h e (List.contains_iff_mem.1 hmem)
  omega

theorem fate_of_lt (h : ∀ e ∈ edits, index < e.index) (line : Line) :
    fate ls edits (line, index) = [line] := by
  have hhangs : hangs ls edits index = false := hangs_of_le fun e he => Nat.le_of_lt (h e he)
  have hdelete : edits.contains (.delete index) = false := contains_of_lt h (Nat.le_refl index)
  have hrename : edits.contains (.rename index) = false := contains_of_lt h (Nat.le_refl index)
  simp only [fate, hdelete, hrename, hhangs, Bool.false_and, Bool.false_eq_true, ↓reduceIte]

/-- Every line above all edits stays. -/
theorem edited_eq_take (h : ∀ e ∈ edits, index ≤ e.index) (hle : index ≤ ls.length) :
    edited ls edits = ls.take index ++ editedFrom ls edits index := by
  induction index with
  | zero => rfl
  | succ index ih =>
    have hlt : index < ls.length := hle
    rw [ih (fun e he => Nat.le_of_succ_le (h e he)) (Nat.le_of_lt hlt), editedFrom_of_lt hlt,
      fate_of_lt h, List.take_succ_eq_append_getElem hlt, List.append_assoc]

/-- From `index` on the same lines are edited. -/
def SameFrom (index : Nat) (edits edits' : List NameEdit) : Prop :=
  ∀ e : NameEdit, index ≤ e.index → edits.contains e = edits'.contains e

theorem SameFrom.succ (h : SameFrom index edits edits') : SameFrom (index + 1) edits edits' :=
  fun e he => h e (Nat.le_of_succ_le he)

theorem editedFrom_congr (h : SameFrom index edits edits')
    (hhangs : hangs ls edits index = hangs ls edits' index) :
    editedFrom ls edits index = editedFrom ls edits' index := by
  induction hcount : ls.length - index generalizing index with
  | zero =>
    have hle : ls.length ≤ index := Nat.le_of_sub_eq_zero hcount
    rw [editedFrom_of_le hle, editedFrom_of_le hle]
  | succ count ih =>
    have hlt : index < ls.length := by omega
    have hdelete := h (.delete index) (Nat.le_refl index)
    have hrename := h (.rename index) (Nat.le_refl index)
    have hnext : hangs ls edits (index + 1) = hangs ls edits' (index + 1) := by
      rw [hangs, hangs, hdelete, hhangs]
    rw [editedFrom_of_lt hlt, editedFrom_of_lt hlt, ih h.succ hnext (by omega), fate, fate, hdelete,
      hrename, hhangs]

/-- Lines without a blank one at their head. -/
def dropBlank : List Line → List Line
  | [] => []
  | line :: rest => if Text.isBlank line then rest else line :: rest

theorem AtNames.exists_name (h : AtNames ls edits) {e : NameEdit} (hmem : edits.contains e = true)
    {line : Line} (hline : ls[e.index]? = some line) : ∃ name, parse? line = some name := by
  obtain ⟨line', hline', hname⟩ := h e (List.contains_iff_mem.1 hmem)
  obtain rfl := Option.some.inj (hline.symm.trans hline')
  exact Option.isSome_iff_exists.1 hname

/-- Below a deleted line no line stands right under a class header. -/
theorem underHeader_of_hangs (h : AtNames ls edits) (hhangs : hangs ls edits index = true) :
    underHeader ls index = false := by
  cases index with
  | zero => rfl
  | succ index =>
    rw [hangs, Bool.and_eq_true_iff] at hhangs
    cases hline : ls[index]? with
    | none => rw [underHeader, hline, Option.bind_none, Option.isSome_none]
    | some line =>
      obtain ⟨name, hname⟩ := h.exists_name hhangs.1 hline
      rw [underHeader, hline, Option.bind_some, classHeader_eq_none hname, Option.isSome_none]

/-- With one more deletion above them, the lines lose a blank line at their head at most. The line
after the deleted one is either kept, and then stops this, or it is deleted as well, and then it hands
this down. -/
theorem editedFrom_of_hangs (h : SameFrom index edits edits') (hnames : AtNames ls edits')
    (hold : hangs ls edits index = false) (hnew : hangs ls edits' index = true) :
    editedFrom ls edits' index = dropBlank (editedFrom ls edits index) := by
  -- on the number of lines from here on
  induction hcount : ls.length - index generalizing index with
  | zero =>
    have hle : ls.length ≤ index := Nat.le_of_sub_eq_zero hcount
    rw [editedFrom_of_le hle, editedFrom_of_le hle]
    rfl
  | succ count ih =>
    have hlt : index < ls.length := by omega
    have hdelete := h (.delete index) (Nat.le_refl index)
    have hrename := h (.rename index) (Nat.le_refl index)
    rw [editedFrom_of_lt hlt, editedFrom_of_lt hlt, fate, fate, hdelete, hrename, hold, hnew]
    cases hd : edits'.contains (.delete index) with
    | true =>
      have hunder : underHeader ls index = false := underHeader_of_hangs hnames hnew
      have hold' : hangs ls edits (index + 1) = false := by
        rw [hangs, hunder, hold, Bool.or_false, Bool.and_false]
      have hnew' : hangs ls edits' (index + 1) = true := by
        rw [hangs, hd, hnew, Bool.or_true, Bool.and_true]
      simp only [↓reduceIte, List.nil_append]
      exact ih h.succ hold' hnew' (by omega)
    | false =>
      have hnext : hangs ls edits (index + 1) = hangs ls edits' (index + 1) := by
        rw [hangs, hangs, hdelete, hd, Bool.false_and, Bool.false_and]
      rw [editedFrom_congr h.succ hnext]
      cases hr : edits'.contains (.rename index) with
      | true =>
        obtain ⟨name, hname⟩ := hnames.exists_name hr (List.getElem?_eq_getElem hlt)
        simp only [Bool.false_eq_true, ↓reduceIte, List.singleton_append, dropBlank,
          isBlank_renamed hname]
      | false =>
        simp only [Bool.false_eq_true, ↓reduceIte, Bool.false_and, Bool.true_and,
          List.singleton_append, dropBlank]
        split <;> rfl

/-! ## One edit -/

theorem apply_rename (above below : List Line) (line : Line) :
    apply (above ++ line :: below) (.rename above.length) =
      .ok (above ++ renamed line :: below) := by
  have hget : (above ++ line :: below)[above.length]? = some line := by
    rw [List.getElem?_append_right (Nat.le_refl _), Nat.sub_self, List.getElem?_cons_zero]
  rw [apply, Lines.line_ok_iff.2 hget]
  exact Lines.splice_append above [line] below [renamed line] rfl rfl

theorem apply_delete_eq (h : index < ls.length) : apply ls (.delete index) =
    Lines.splice ls ⟨index, if underHeader ls index && ls[index + 1]?.any Text.isBlank then index + 1
      else index⟩ [] := by
  cases index with
  | zero => rfl
  | succ index =>
    have hlt : index < ls.length := Nat.lt_of_succ_lt h
    rw [apply, if_neg (Nat.succ_ne_zero index), Nat.add_sub_cancel, Lines.line_of_lt hlt, underHeader,
      List.getElem?_eq_getElem hlt]
    rfl

theorem apply_delete (above below : List Line) (line : Line) :
    apply (above ++ line :: below) (.delete above.length) =
      .ok (above ++ if underHeader above above.length then dropBlank below else below) := by
  have hlt : above.length < (above ++ line :: below).length := by
    rw [List.length_append, List.length_cons]
    omega
  have hunder : underHeader (above ++ line :: below) above.length = underHeader above above.length :=
    underHeader_congr (by rw [List.take_left, List.take_length])
  have hbelow : (above ++ line :: below)[above.length + 1]? = below.head? := by
    rw [List.getElem?_append_right (Nat.le_succ _), Nat.succ_sub (Nat.le_refl _), Nat.sub_self,
      List.getElem?_cons_succ, List.head?_eq_getElem?]
  rw [apply_delete_eq hlt, hunder, hbelow]
  cases underHeader above above.length with
  | false => exact Lines.splice_append above [line] below [] rfl rfl
  | true =>
    cases below with
    | nil => exact Lines.splice_append above [line] [] [] rfl rfl
    | cons next below =>
      simp only [List.head?_cons, Option.any_some, Bool.true_and, ↓reduceIte, dropBlank]
      split
      · exact Lines.splice_append above [line, next] below [] rfl rfl
      · exact Lines.splice_append above [line] (next :: below) [] rfl rfl

section

variable (hlt : index < ls.length) (h : ∀ e ∈ edits, index < e.index)
include hlt h

theorem edited_eq_cons :
    edited ls edits = ls.take index ++ ls[index] :: editedFrom ls edits (index + 1) := by
  rw [edited_eq_take h hlt, List.take_succ_eq_append_getElem hlt, List.append_assoc,
    List.singleton_append]

theorem edited_cons {e : NameEdit} (he : e.index = index) : edited ls (e :: edits) =
    ls.take index ++
      (fate ls (e :: edits) (ls[index], index) ++ editedFrom ls (e :: edits) (index + 1)) := by
  have hle : ∀ e' ∈ e :: edits, index ≤ e'.index := by
    intro e' he'
    rcases List.mem_cons.1 he' with rfl | he'
    · exact Nat.le_of_eq he.symm
    · exact Nat.le_of_lt (h e' he')
  rw [edited_eq_take hle (Nat.le_of_lt hlt), editedFrom_of_lt hlt]

omit hlt h in
theorem sameFrom_cons {e : NameEdit} (he : e.index = index) :
    SameFrom (index + 1) edits (e :: edits) := by
  intro e' he'
  have hne : (e' == e) = false := by
    rw [beq_eq_false_iff_ne]
    rintro rfl
    omega
  rw [List.contains_cons, hne, Bool.false_or]

theorem apply_rename_edited :
    apply (edited ls edits) (.rename index) = .ok (edited ls (.rename index :: edits)) := by
  have hlength : (ls.take index).length = index := List.length_take_of_le (Nat.le_of_lt hlt)
  have hdelete : (NameEdit.rename index :: edits).contains (.delete index) = false := by
    have hnotMem : edits.contains (.delete index) = false := contains_of_lt h (Nat.le_refl index)
    rw [List.contains_cons, hnotMem]
    rfl
  have hrename : (NameEdit.rename index :: edits).contains (.rename index) = true := by
    rw [List.contains_cons, beq_self_eq_true, Bool.true_or]
  have hfate : fate ls (.rename index :: edits) (ls[index], index) = [renamed ls[index]] := by
    simp only [fate, hdelete, hrename, Bool.false_eq_true, ↓reduceIte]
  have hhangs : hangs ls edits (index + 1) = hangs ls (.rename index :: edits) (index + 1) := by
    rw [hangs_of_le h, hangs, hdelete, Bool.false_and]
  have happly := apply_rename (ls.take index) (editedFrom ls edits (index + 1)) ls[index]
  rw [hlength] at happly
  have hsame : SameFrom (index + 1) edits (.rename index :: edits) := sameFrom_cons rfl
  rw [edited_eq_cons hlt h, edited_cons hlt h rfl, hfate, ← editedFrom_congr hsame hhangs, happly]
  rfl

theorem apply_delete_edited (hnames : AtNames ls (.delete index :: edits)) :
    apply (edited ls edits) (.delete index) = .ok (edited ls (.delete index :: edits)) := by
  have hlength : (ls.take index).length = index := List.length_take_of_le (Nat.le_of_lt hlt)
  have hdelete : (NameEdit.delete index :: edits).contains (.delete index) = true := by
    rw [List.contains_cons, beq_self_eq_true, Bool.true_or]
  have hfate : fate ls (.delete index :: edits) (ls[index], index) = [] := by
    simp only [fate, hdelete, ↓reduceIte]
  have hhangs : hangs ls (.delete index :: edits) (index + 1) = underHeader ls index := by
    have hat : hangs ls (.delete index :: edits) index = false := by
      refine hangs_of_le fun e he => ?_
      rcases List.mem_cons.1 he with rfl | he
      · exact Nat.le_refl index
      · exact Nat.le_of_lt (h e he)
    rw [hangs, hdelete, hat, Bool.or_false, Bool.true_and]
  have hunder : underHeader (ls.take index) index = underHeader ls index :=
    underHeader_congr (by rw [List.take_take, Nat.min_self])
  have happly := apply_delete (ls.take index) (editedFrom ls edits (index + 1)) ls[index]
  rw [hlength, hunder] at happly
  rw [edited_eq_cons hlt h, edited_cons hlt h rfl, hfate, List.nil_append, happly]
  have hsame : SameFrom (index + 1) edits (.delete index :: edits) := sameFrom_cons rfl
  have hold : hangs ls edits (index + 1) = false := hangs_of_le h
  cases hu : underHeader ls index with
  | false =>
    rw [editedFrom_congr hsame (hold.trans (hhangs.trans hu).symm)]
    rfl
  | true =>
    rw [editedFrom_of_hangs hsame hnames hold (hhangs.trans hu)]
    rfl

end

/-- An edit above all those done so far is one more edit of the pass. -/
theorem apply_edited {e : NameEdit} (hnames : AtNames ls (e :: edits))
    (h : ∀ e' ∈ edits, e.index < e'.index) :
    apply (edited ls edits) e = .ok (edited ls (e :: edits)) := by
  obtain ⟨line, hline, -⟩ := hnames e List.mem_cons_self
  obtain ⟨hlt, -⟩ := List.getElem?_eq_some_iff.1 hline
  cases e with
  | rename index => exact apply_rename_edited hlt h
  | delete index => exact apply_delete_edited hlt h hnames

/-! ## All edits -/

theorem edited_nil : edited ls [] = ls := by
  have htake : edited ls [] = ls.take ls.length ++ editedFrom ls [] ls.length :=
    edited_eq_take (fun e he => absurd he List.not_mem_nil) (Nat.le_refl _)
  rw [htake, editedFrom_of_le (Nat.le_refl _), List.take_length, List.append_nil]

theorem edited_congr (h : ∀ e : NameEdit, e ∈ edits ↔ e ∈ edits') :
    edited ls edits = edited ls edits' :=
  editedFrom_congr (fun e _ => by rw [Bool.eq_iff_iff, List.contains_iff_mem, List.contains_iff_mem, h])
    rfl

/-- Edits from the bottom up are carried out together. -/
theorem foldlM_apply_edited {todo : List NameEdit} (hnames : AtNames ls (todo ++ edits))
    (hsorted : todo.Pairwise fun e e' => e'.index < e.index)
    (h : ∀ e ∈ todo, ∀ e' ∈ edits, e.index < e'.index) :
    todo.foldlM apply (edited ls edits) = .ok (edited ls (todo ++ edits)) := by
  induction todo generalizing edits with
  | nil => rfl
  | cons e todo ih =>
    have hperm : ∀ e', e' ∈ todo ++ e :: edits ↔ e' ∈ e :: todo ++ edits := fun e' => by
      simp only [List.mem_append, List.mem_cons]
      tauto
    have hstep : apply (edited ls edits) e = .ok (edited ls (e :: edits)) := by
      refine apply_edited (fun e' he' => hnames e' ?_) (h e List.mem_cons_self)
      rcases List.mem_cons.1 he' with rfl | he'
      · exact List.mem_append_left _ List.mem_cons_self
      · exact List.mem_append_right _ he'
    obtain ⟨hfirst, hsorted⟩ := List.pairwise_cons.1 hsorted
    rw [List.foldlM_cons, hstep]
    show todo.foldlM apply (edited ls (e :: edits)) = _
    rw [ih (fun e' he' => hnames e' ((hperm e').1 he')) hsorted, edited_congr hperm]
    intro e' he' e'' he''
    rcases List.mem_cons.1 he'' with rfl | he''
    · exact hfirst e' he'
    · exact h e' (List.mem_cons_of_mem e he') e'' he''

theorem atNames_edits : AtNames ls (NameStatement.edits ls) := fun _ he => parse?_of_mem_edits he

/-- The lines of a text after all its edits, unless two of them are of the same line. -/
theorem foldlM_upwards (h : ((NameStatement.edits ls).map NameEdit.index).Nodup) :
    (upwards ls).foldlM apply ls = .ok (edited ls (NameStatement.edits ls)) := by
  have hperm : (upwards ls).Perm (NameStatement.edits ls) := List.mergeSort_perm _ _
  have hsorted : (upwards ls).Pairwise fun e e' => e'.index < e.index := by
    have hle : (upwards ls).Pairwise fun e e' => e'.index ≤ e.index :=
      (List.pairwise_mergeSort (fun a b c => by simp only [decide_eq_true_eq]; omega)
        (fun a b => by simp only [Bool.or_eq_true, decide_eq_true_eq]; omega)
        (NameStatement.edits ls)).imp of_decide_eq_true
    have hne : (upwards ls).Pairwise fun e e' => e.index ≠ e'.index :=
      List.pairwise_map.1 ((hperm.map NameEdit.index).nodup_iff.2 h)
    exact (hle.and hne).imp fun ⟨hle, hne⟩ => Nat.lt_of_le_of_ne hle (Ne.symm hne)
  have hnames : AtNames ls (upwards ls ++ []) := by
    intro e he
    rw [List.append_nil, hperm.mem_iff] at he
    exact atNames_edits e he
  have hrun := foldlM_apply_edited hnames hsorted fun _ _ e' he' => absurd he' List.not_mem_nil
  rw [edited_nil, List.append_nil] at hrun
  rw [hrun, edited_congr fun e => hperm.mem_iff]

end

end SchemaLift.NameStatement
