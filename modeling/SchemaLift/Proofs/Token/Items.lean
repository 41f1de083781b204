import SchemaLift.Proofs.Token.Bracket

/-!
# Items between commas

`segments` cuts tokens at the commas outside all brackets. `Itemized` says the same as a relation
(`segments_eq_some_iff`): each item has balanced brackets of its own, with all its commas inside them,
and one comma stands between an item and the next. What is an item, and where a bracket closes, depends
on the kinds of the tokens only.
-/

namespace SchemaLift.Token

/-- Tokens with balanced brackets and no comma outside them. -/
def IsItem (ts : List Token) : Prop := itemDepth 0 ts = some 0

/-- The first item reaches to the end or to a comma. -/
theorem exists_of_segments {depth : Nat} {ts : List Token} {items : List (List Token)}
    (h : segments depth ts = some items) : ∃ first rest, items = first :: rest ∧
      itemDepth depth first = some 0 ∧ ((rest = [] ∧ ts = first) ∨ ∃ comma ts', comma.kind = .comma ∧
        ts = first ++ comma :: ts' ∧ segments 0 ts' = some rest) := by
  induction ts generalizing depth items with
  | nil =>
    rw [segments] at h
    split at h
    · rename_i hdepth
      obtain rfl := Option.some.inj h
      exact ⟨[], [], rfl, by rw [hdepth, itemDepth], .inl ⟨rfl, rfl⟩⟩
    · cases h
  | cons t ts ih =>
    rw [segments_cons] at h
    split at h
    · rename_i hcomma
      obtain ⟨rest, hrest, rfl⟩ := Option.map_eq_some_iff.1 h
      exact ⟨[], rest, rfl, by rw [hcomma.2, itemDepth], .inr ⟨t, ts, hcomma.1, rfl, hrest⟩⟩
    · rename_i hcomma
      obtain ⟨d, hd, h⟩ := Option.bind_eq_some_iff.1 h
      obtain ⟨found, hfound, rfl⟩ := Option.map_eq_some_iff.1 h
      obtain ⟨first, rest, rfl, hfirst, hcut⟩ := ih hfound
      refine ⟨t :: first, rest, rfl, ?_, ?_⟩
      · rw [itemDepth, if_neg hcomma, hd, Option.bind_some, hfirst]
      · rcases hcut with ⟨rfl, rfl⟩ | ⟨comma, ts', hkind, rfl, hrest⟩
        · exact .inl ⟨rfl, rfl⟩
        · exact .inr ⟨comma, ts', hkind, rfl, hrest⟩

/-- Tokens are items with one comma between an item and the next. -/
inductive Itemized : List Token → List Token → List (List Token) → Prop
  | last {item : List Token} (h : IsItem item) : Itemized item [] [item]
  | cons {item ts : List Token} {comma : Token} {commas : List Token} {items : List (List Token)}
      (h : IsItem item) (hcomma : comma.kind = .comma) (hrest : Itemized ts commas items) :
      Itemized (item ++ comma :: ts) (comma :: commas) (item :: items)

theorem segments_eq_some_iff {ts : List Token} {items : List (List Token)} :
    segments 0 ts = some items ↔ ∃ commas, Itemized ts commas items := by
  constructor
  · intro h
    induction items generalizing ts with
    | nil =>
      obtain ⟨_, _, hitems, -⟩ := exists_of_segments h
      cases hitems
    | cons item items ih =>
      obtain ⟨first, rest, hitems, hfirst, hcut⟩ := exists_of_segments h
      obtain ⟨rfl, rfl⟩ := List.cons.inj hitems
      rcases hcut with ⟨rfl, rfl⟩ | ⟨comma, ts', hkind, rfl, hrest⟩
      · exact ⟨[], .last hfirst⟩
      · obtain ⟨commas, hcommas⟩ := ih hrest
        exact ⟨comma :: commas, .cons hfirst hkind hcommas⟩
  · rintro ⟨commas, h⟩
    induction h with
    | @last item h =>
      have hnil : segments 0 [] = some [[]] := rfl
      have hall := segments_item_append h hnil
      rwa [List.append_nil] at hall
    | @cons item ts comma commas items h hcomma _ ih =>
      have hrest : segments 0 (comma :: ts) = some ([] :: items) := by
        rw [segments_comma hcomma, ih, Option.map_some]
      have hall := segments_item_append h hrest
      rwa [List.append_nil] at hall

namespace Itemized

variable {ts commas : List Token} {items : List (List Token)} (h : Itemized ts commas items)
include h

theorem isItem : ∀ item ∈ items, IsItem item := by
  induction h with
  | last h => simpa using h
  | cons h _ _ ih => exact List.forall_mem_cons.2 ⟨h, ih⟩

theorem ne_nil : items ≠ [] := by
  cases h <;> exact List.cons_ne_nil _ _

/-- Each item is a stretch of the tokens. -/
theorem isInfix : ∀ item ∈ items, item <:+: ts := by
  induction h with
  | last h => simp
  | cons h hcomma _ ih =>
    refine List.forall_mem_cons.2 ⟨(List.prefix_append _ _).isInfix, fun item' hitem => ?_⟩
    exact (ih item' hitem).trans (List.suffix_append_of_suffix (List.suffix_cons _ _)).isInfix

/-- The tokens are those of the items and the commas. -/
theorem perm {α : Type} (f : Token → List α) :
    (ts.flatMap f).Perm (items.flatMap (·.flatMap f) ++ commas.flatMap f) := by
  induction h with
  | last h => simp
  | cons h hcomma _ ih =>
    simp only [List.flatMap_append, List.flatMap_cons, List.append_assoc]
    -- the comma goes behind the other items
    exact ((ih.append_left _).trans (List.perm_append_comm_assoc _ _ _)).append_left _

theorem mem_of_mem_commas : ∀ comma ∈ commas, comma ∈ ts ∧ comma.kind = .comma := by
  induction h with
  | last h => simp
  | cons h hcomma _ ih =>
    refine List.forall_mem_cons.2 ⟨⟨by simp, hcomma⟩, fun comma hmem => ?_⟩
    exact ⟨List.mem_append_right _ (List.mem_cons_of_mem _ (ih comma hmem).1), (ih comma hmem).2⟩

end Itemized

/-! ## Kinds -/

theorem depthBelow_congr {t u : Token} (h : t.kind = u.kind) (depth : Nat) :
    depthBelow depth t = depthBelow depth u := by
  rw [depthBelow, depthBelow, h]

/-- Whether tokens are an item depends on their kinds. -/
theorem itemDepth_congr {ts us : List Token} (h : ts.map Token.kind = us.map Token.kind)
    (depth : Nat) : itemDepth depth ts = itemDepth depth us := by
  induction ts generalizing us depth with
  | nil =>
    obtain rfl := List.map_eq_nil_iff.1 h.symm
    rfl
  | cons t ts ih =>
    obtain ⟨u, us, rfl, hkind, hrest⟩ := List.map_eq_cons_iff.1 h.symm
    rw [itemDepth, itemDepth, hkind, depthBelow_congr hkind]
    simp only [ih hrest.symm]

theorem IsItem.congr {ts us : List Token} (h : IsItem ts)
    (hkinds : ts.map Token.kind = us.map Token.kind) : IsItem us :=
  (itemDepth_congr hkinds 0).symm.trans h

/-- Items of the same kinds make tokens of the same kinds. -/
theorem Itemized.map_kind_eq {ts us commas commas' : List Token} {items items' : List (List Token)}
    (h : Itemized ts commas items) (h' : Itemized us commas' items')
    (hkinds : items.map (·.map Token.kind) = items'.map (·.map Token.kind)) :
    ts.map Token.kind = us.map Token.kind := by
  induction h generalizing us commas' items' with
  | last h =>
    cases h' with
    | last h' => exact (List.cons.inj hkinds).1
    | cons h' hcomma' hrest' =>
      obtain ⟨-, hnil⟩ := List.cons.inj hkinds
      exact absurd (List.map_eq_nil_iff.1 hnil.symm) hrest'.ne_nil
  | @cons item ts comma commas items h hcomma hrest ih =>
    cases h' with
    | last h' =>
      obtain ⟨-, hnil⟩ := List.cons.inj hkinds
      exact absurd (List.map_eq_nil_iff.1 hnil) hrest.ne_nil
    | @cons item' us comma' commas' items' h' hcomma' hrest' =>
      obtain ⟨hitem, hitems⟩ := List.cons.inj hkinds
      have hitem : item.map Token.kind = item'.map Token.kind := hitem
      rw [List.map_append, List.map_append, List.map_cons, List.map_cons, hitem, hcomma, hcomma',
        ih hrest' hitems]

/-! ## Closing brackets -/

theorem closeIndex_cons (depth : Nat) (t : Token) (ts : List Token) : closeIndex depth (t :: ts) =
    match depthBelow depth t with
    | some depth => (closeIndex depth ts).map (· + 1)
    | none => some 0 := by
  rw [closeIndex.eq_def, depthBelow]
  simp only
  split
  · rfl
  split
  · cases depth <;> rfl
  · rfl

/-- Balanced tokens close no bracket that is open in front of them. -/
theorem closeIndex_item_append {depth d : Nat} {ts : List Token} (h : itemDepth depth ts = some d)
    (rest : List Token) :
    closeIndex depth (ts ++ rest) = (closeIndex d rest).map (· + ts.length) := by
  induction ts generalizing depth with
  | nil =>
    obtain rfl := Option.some.inj h
    simp
  | cons t ts ih =>
    rw [itemDepth] at h
    split at h
    · cases h
    obtain ⟨d', hd', h⟩ := Option.bind_eq_some_iff.1 h
    rw [List.cons_append, closeIndex_cons, hd']
    simp only [ih h, Option.map_map]
    rfl

theorem Itemized.closeIndex_append {ts commas : List Token} {items : List (List Token)}
    (h : Itemized ts commas items) (rest : List Token) :
    closeIndex 0 (ts ++ rest) = (closeIndex 0 rest).map (· + ts.length) := by
  induction h with
  | last h => exact closeIndex_item_append h rest
  | @cons item ts comma commas items h hcomma _ ih =>
    rw [List.append_assoc, closeIndex_item_append h, List.cons_append, closeIndex_cons,
      depthBelow_comma hcomma]
    simp only [ih, Option.map_map, List.length_append, List.length_cons]
    congr 1
    funext n
    simp only [Function.comp_apply]
    omega

/-- What stands at the index found is a closing bracket. -/
theorem exists_of_closeIndex {depth i : Nat} {ts : List Token} (h : closeIndex depth ts = some i) :
    ∃ before closer after, ts = before ++ closer :: after ∧ before.length = i ∧
      closer.kind.closesBracket = true := by
  induction ts generalizing depth i with
  | nil => cases h
  | cons t ts ih =>
    rw [closeIndex_cons] at h
    split at h
    · obtain ⟨j, hj, rfl⟩ := Option.map_eq_some_iff.1 h
      obtain ⟨before, closer, after, rfl, rfl, hcloser⟩ := ih hj
      exact ⟨t :: before, closer, after, rfl, rfl, hcloser⟩
    · rename_i hbelow
      obtain rfl := Option.some.inj h
      exact ⟨[], t, ts, rfl, rfl, (depthBelow_eq_none_iff.1 hbelow).2.2⟩

end SchemaLift.Token
