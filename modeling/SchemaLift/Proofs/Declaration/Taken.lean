import Mathlib.Data.Multiset.Basic
import SchemaLift.Proofs.Declaration.Measure
import SchemaLift.Proofs.Declaration.Pulled
import SchemaLift.Proofs.Declaration.Rewrite

/-!
# The statements that leave a block

Every rewritten declaration takes statements out of its block, each once, and puts their comments behind
those of its header (`exists_takes`). Statements share no line, so what is counted on the lines that go is
counted statement by statement (`Rewrite.Takes.sum_takenLines`).
-/

namespace SchemaLift.Declaration

open scoped List

/-! ## Which statements -/

/-- What was collected comes from `taken` statements, and from the first resolver. -/
structure Pulled.Tally (entries : List (LineRange × Statement)) (p : Pulled)
    (taken : List (LineRange × Statement)) : Prop where
  subperm : taken ++ p.resolver.toList <+~ entries
  removed : p.removed = taken.map Prod.fst
  comments : p.comments = taken.flatMap (·.2.comments)

namespace Pulled

variable (kind : DeclarationKind) (typed described : Bool) {entries : List (LineRange × Statement)}
  {p : Pulled} {taken : List (LineRange × Statement)}

theorem Tally.add (h : p.Tally entries taken) (entry : LineRange × Statement) :
    ∃ taken, (p.add kind typed described entry.1 entry.2).Tally (entries ++ [entry]) taken := by
  obtain ⟨r, s⟩ := entry
  have hone : [(r, s)] <+~ [(r, s)] := .refl _
  rcases add_cases kind typed described p r s with
    heq | ⟨q, heq, hremoved, hcomments, hresolver, -⟩ | ⟨-, heq⟩
  · rw [heq]
    exact ⟨taken, h.subperm.trans (List.sublist_append_left _ _).subperm, h.removed, h.comments⟩
  · rw [heq]
    refine ⟨taken ++ [(r, s)], ?_, ?_, ?_⟩
    · have hswap : taken ++ [(r, s)] ++ p.resolver.toList ~ taken ++ p.resolver.toList ++ [(r, s)] := by
        rw [List.append_assoc, List.append_assoc]
        exact List.perm_append_comm.append_left taken
      show taken ++ [(r, s)] ++ q.resolver.toList <+~ entries ++ [(r, s)]
      rw [hresolver]
      exact hswap.subperm.trans (h.subperm.append hone)
    · show q.removed ++ [r] = _
      rw [hremoved, h.removed, List.map_append]
      rfl
    · show q.comments ++ s.comments = _
      rw [hcomments, h.comments, List.flatMap_append, List.flatMap_singleton]
  · rw [heq]
    exact ⟨taken, ((List.sublist_append_left _ _).subperm.trans h.subperm).append hone, h.removed,
      h.comments⟩

theorem exists_tally_foldl (h : p.Tally entries taken) (rest : List (LineRange × Statement)) :
    ∃ taken, (rest.foldl (fun p entry => p.add kind typed described entry.1 entry.2) p).Tally
      (entries ++ rest) taken := by
  induction rest generalizing p entries taken with
  | nil => exact ⟨taken, by rw [List.append_nil]; exact h⟩
  | cons entry rest ih =>
    obtain ⟨taken, htaken⟩ := Tally.add kind typed described h entry
    obtain ⟨taken, hrest⟩ := ih htaken
    rw [List.append_assoc] at hrest
    exact ⟨taken, hrest⟩

theorem exists_tally (entries : List (LineRange × Statement)) :
    ∃ taken, (ofStatements kind typed described entries).Tally entries taken := by
  have hnone : nothing.Tally [] [] := ⟨.refl _, rfl, rfl⟩
  exact exists_tally_foldl kind typed described hnone entries

end Pulled

/-- A rewritten declaration takes these statements out of its block, and their comments to its
header. -/
structure Rewrite.Takes (r : Rewrite) (d : Declaration) (ls : List Line)
    (taken : List (LineRange × Statement)) : Prop where
  subperm : taken <+~ d.readStatements ls
  removed : r.removed = taken.map Prod.fst
  comments : r.header.comments = d.signature.comments ++ taken.flatMap (·.2.comments)

section

variable {d : Declaration} {ls : List Line} {r : Rewrite}

theorem takes_of_statement? {keywords : List String} {entry : LineRange × Statement}
    (h : d.statement? ls keywords = some entry) : [entry] <+~ d.readStatements ls :=
  (List.singleton_sublist.2 (List.mem_of_find?_eq_some h)).subperm

/-- **What a rule takes out of the block of a declaration.** -/
theorem exists_takes {rule : Rule} (h : d.rewrite? ls rule = some r) : ∃ taken, r.Takes d ls taken := by
  have hpulled : ∀ kind, ∃ taken, (d.pulled ls kind).Tally (d.readStatements ls) taken := fun kind =>
    Pulled.exists_tally kind (headerType d.signature).isSome
      (d.signature.positional.any isStringLiteral) (d.readStatements ls)
  have hfirst : ∀ {p : Pulled} {taken}, p.Tally (d.readStatements ls) taken →
      taken <+~ d.readStatements ls := fun h =>
    (List.sublist_append_left _ _).subperm.trans h.subperm
  cases made_of_rewrite? h with
  | @flat kind name text t =>
    obtain ⟨taken, htaken⟩ := hpulled kind
    refine ⟨taken, hfirst htaken, htaken.removed, ?_⟩
    rw [← htaken.comments]
    rfl
  | @flatStatement kind name text t entry declared trailer _ _ _ hentry =>
    obtain ⟨taken, htaken⟩ := hpulled kind
    have hsubperm := htaken.subperm
    rw [hentry] at hsubperm
    refine ⟨taken ++ [entry], hsubperm, ?_, ?_⟩
    · show (d.pulled ls kind).removed ++ [entry.1] = _
      rw [htaken.removed, List.map_append]
      rfl
    · show d.signature.comments ++ (d.pulled ls kind).comments ++ entry.2.comments = _
      rw [htaken.comments, List.flatMap_append, List.flatMap_singleton, List.append_assoc]
  | @flatArgument kind =>
    obtain ⟨taken, htaken⟩ := hpulled kind
    refine ⟨taken, hfirst htaken, htaken.removed, ?_⟩
    rw [← htaken.comments]
    rfl
  | renamed => exact ⟨[], List.nil_subperm, rfl, by simp [Signature.renameKeyword]⟩
  | @pushed entry hentry =>
    exact ⟨[entry], takes_of_statement? hentry, rfl, by simp⟩
  | @movedStatement entry declared trailer hentry =>
    exact ⟨[entry], takes_of_statement? hentry, rfl, by simp⟩
  | movedArgument => exact ⟨[], List.nil_subperm, rfl, by simp [Signature.removeKeyword]⟩

end

/-! ## Their lines -/

theorem filter_contains_body {b : Block} {r : LineRange} (hfirst : b.start < r.first)
    (hle : r.first ≤ r.last) (hlast : r.last < b.stop) :
    b.body.filter (r.contains ·) = (List.range (r.last + 1 - r.first)).map (r.first + ·) := by
  -- the body in three parts: above the range, inside it, and below
  have hcount : b.stop - (b.start + 1) = (r.first - (b.start + 1)) +
      ((r.last + 1 - r.first) + (b.stop - (r.last + 1))) := by omega
  have habove : ((List.range (r.first - (b.start + 1))).map (b.start + 1 + ·)).filter
      (r.contains ·) = [] := by
    rw [List.filter_eq_nil_iff]
    intro i hi
    obtain ⟨j, hj, rfl⟩ := List.mem_map.1 hi
    have := List.mem_range.1 hj
    rw [LineRange.contains_iff]
    omega
  have hinside : ((List.range (r.last + 1 - r.first)).map (r.first + ·)).filter (r.contains ·) =
      (List.range (r.last + 1 - r.first)).map (r.first + ·) := by
    rw [List.filter_eq_self]
    intro i hi
    obtain ⟨j, hj, rfl⟩ := List.mem_map.1 hi
    have := List.mem_range.1 hj
    rw [LineRange.contains_iff]
    omega
  have hbelow : ((List.range (b.stop - (r.last + 1))).map (r.last + 1 + ·)).filter
      (r.contains ·) = [] := by
    rw [List.filter_eq_nil_iff]
    intro i hi
    obtain ⟨j, hj, rfl⟩ := List.mem_map.1 hi
    rw [LineRange.contains_iff]
    omega
  have hmiddle : ∀ i, b.start + 1 + (r.first - (b.start + 1) + i) = r.first + i := fun i => by omega
  have hend : ∀ i, r.first + (r.last + 1 - r.first + i) = r.last + 1 + i := fun i => by omega
  unfold Block.body
  rw [hcount, List.range_add, List.map_append, List.filter_append, habove, List.nil_append,
    List.map_map]
  simp only [Function.comp_def, hmiddle]
  rw [List.range_add, List.map_append, List.filter_append, hinside, List.map_map]
  simp only [Function.comp_def, hend]
  rw [hbelow, List.append_nil]

section

variable {M : Type} [AddCommMonoid M] (f : Line → M) {d : Declaration} {ls : List Line} {b : Block}

theorem sum_filter_or (indices : List Nat) {p q : Nat → Bool} (h : ∀ i, ¬(p i = true ∧ q i = true))
    (g : Nat → Option Line) : (((indices.filter fun i => p i || q i).filterMap g).map f).sum =
      (((indices.filter p).filterMap g).map f).sum + (((indices.filter q).filterMap g).map f).sum := by
  have hfirst : (fun i => p i && (p i || q i)) = p := by
    funext i
    cases p i <;> rfl
  have hsecond : (fun i => (!p i) && (p i || q i)) = q := by
    funext i
    cases hp : p i with
    | true => exact (Bool.eq_false_iff.2 fun hq => h i ⟨hp, hq⟩).symm
    | false => rfl
  have hperm := List.filter_append_perm p (indices.filter fun i => p i || q i)
  rw [List.filter_filter, List.filter_filter, hfirst, hsecond] at hperm
  rw [← ((hperm.filterMap g).map f).sum_eq, List.filterMap_append, List.map_append, List.sum_append]

/-- The lines that go are those of the statements that go. -/
theorem sum_takenLines_of_apart (hb : d.block = some b) {removed : Removed}
    (hapart : removed.Pairwise LineRange.Apart)
    (hinside : ∀ r ∈ removed, b.start < r.first ∧ r.first ≤ r.last ∧ r.last < b.stop) :
    ((d.takenLines ls removed).map f).sum =
      (removed.map fun r => (((ls.drop r.first).take (r.last + 1 - r.first)).map f).sum).sum := by
  induction removed with
  | nil => simp [takenLines, hb, Removed.covers]
  | cons r rest ih =>
    obtain ⟨hr, hrest⟩ := List.pairwise_cons.1 hapart
    obtain ⟨⟨hfirst, hle, hlast⟩, hinside⟩ := List.forall_mem_cons.1 hinside
    have hdisjoint : ∀ i, ¬(r.contains i = true ∧ Removed.covers rest i = true) := by
      rintro i ⟨hi, hcovers⟩
      obtain ⟨r', hr', hi'⟩ := List.any_eq_true.1 hcovers
      exact hr r' hr' i ⟨hi, hi'⟩
    have hcovers : ∀ i, Removed.covers (r :: rest) i = (r.contains i || Removed.covers rest i) :=
      fun i => rfl
    have hih := ih hrest hinside
    simp only [takenLines, hb] at hih ⊢
    simp only [hcovers]
    rw [sum_filter_or f b.body hdisjoint, hih, filter_contains_body hfirst hle hlast,
      ← take_eq_filterMap, List.map_cons, List.sum_cons]

end

section

variable {d : Declaration} {ls : List Line} {r : Rewrite} {taken : List (LineRange × Statement)}

theorem Rewrite.Takes.removed_subperm (h : r.Takes d ls taken) : r.removed.Subperm d.children := by
  have hranges : ((d.readStatements ls).map Prod.fst).Sublist d.children := by
    unfold readStatements
    induction d.children with
    | nil => exact .slnil
    | cons range rest ih =>
      cases hread : readAt ls range with
      | none =>
        rw [List.filterMap_cons_none hread]
        exact ih.cons range
      | some entry =>
        rw [List.filterMap_cons_some hread, List.map_cons]
        obtain ⟨s, -, rfl⟩ := Option.map_eq_some_iff.1 hread
        exact ih.cons_cons range
  obtain ⟨entries, hperm, hsublist⟩ := h.subperm
  rw [h.removed]
  exact ⟨entries.map Prod.fst, hperm.map Prod.fst, (hsublist.map Prod.fst).trans hranges⟩

theorem Rewrite.Takes.apart (h : r.Takes d ls taken)
    (hchildren : d.children.Pairwise fun a b => a.last < b.first) :
    r.removed.Pairwise LineRange.Apart := by
  obtain ⟨ranges, hperm, hsublist⟩ := h.removed_subperm
  have hsymm : ∀ {a b : LineRange}, a.Apart b → b.Apart a := fun hab i hi => hab i hi.symm
  rw [← hperm.pairwise_iff hsymm]
  exact (hchildren.sublist hsublist).imp fun hlt => LineRange.apart_iff.2 (.inr (.inr (.inl hlt)))

theorem statement_of_mem_readStatements {entry : LineRange × Statement}
    (h : entry ∈ d.readStatements ls) :
    Statement.parse (Lines.extent ls entry.1.first entry.1.last) = some entry.2 := by
  obtain ⟨range, -, hread⟩ := List.mem_filterMap.1 h
  obtain ⟨s, hs, rfl⟩ := Option.map_eq_some_iff.1 hread
  exact hs

/-- **The lines that go are those of the statements that go.** -/
theorem Rewrite.Takes.sum_takenLines {M : Type} [AddCommMonoid M] (f : Line → M)
    (hplaced : d.Placed ls.length) (hchildren : d.children.Pairwise fun a b => a.last < b.first)
    (h : r.Takes d ls taken) : ((d.takenLines ls r.removed).map f).sum =
      (r.removed.map fun range =>
        (((ls.drop range.first).take (range.last + 1 - range.first)).map f).sum).sum := by
  cases hb : d.block with
  | none =>
    have hnone : d.children = [] := by
      refine List.eq_nil_iff_forall_not_mem.2 fun range hrange => ?_
      obtain ⟨b, hb', -⟩ := hplaced.children range hrange
      rw [hb] at hb'
      cases hb'
    have hremoved : r.removed = [] := by
      rw [← List.subperm_nil, ← hnone]
      exact h.removed_subperm
    rw [hremoved, takenLines, hb]
    rfl
  | some b =>
    refine sum_takenLines_of_apart f hb (h.apart hchildren) fun range hrange => ?_
    obtain ⟨b', hb', hbounds⟩ := hplaced.children range (h.removed_subperm.subset hrange)
    rw [hb] at hb'
    obtain rfl := Option.some.inj hb'
    exact hbounds

end

end SchemaLift.Declaration
