import SchemaLift.Proofs.Block.Enclosing
import SchemaLift.Proofs.Declaration.Weight
import SchemaLift.Proofs.Proc.Method

/-!
# What a rewritten declaration adds to the depth of blocks and brackets

The depths below a declaration are the same after it was rewritten exactly if the parts that came add
what the parts that went added (`rewritten_balance_iff`). In a regular declaration all of them cancel but
for the name of a method, which counts if it is `do` or `end` (`Rewrite.Regular.exchanged_iff`).
-/

namespace SchemaLift

namespace Declaration

section

variable {d : Declaration} {ls : List Line} (hls : ∀ line ∈ ls, '\n' ∉ line)
include hls

/-- New lines and what went add what the old lines and what came add. -/
theorem balance_rebuilt (h : d.Placed ls.length) (s : Signature) (removed : Removed) (trailer : List Line) :
    balance (d.rebuilt ls s removed trailer) +
        (balance (d.headLines ls) + balance (d.takenLines ls removed) +
          balance (d.dissolved ls removed)) =
      balance (d.ownLines ls) +
        (balance [(newHeader s (d.staying ls removed)).render] + balance trailer) := by
  have hblank : ∀ line ∈ ls, Text.isBlank line = true → balance [line] = 0 := fun line hline hb => by
    rw [balance_singleton (hls line hline), lineBalance_of_isBlank hb]
  have hsum := sum_rebuilt (f := fun line => balance [line]) rfl hblank h s removed trailer
  simp only [← balance_eq_sum] at hsum
  exact hsum

end

/-- What the trailer of a declaration is: nothing, or the method of its name. -/
def Trails (d : Declaration) (trailer : List Line) : Prop :=
  trailer = [] ∨ ∃ name header body,
    d.signature.name.bind Name.declared? = some name ∧
    (header = name ∨ header = name ++ "(**args)".toList) ∧
    trailer = ProcLiteral.methodLines d.signature.indent header (ProcLiteral.bodyLines body) ∧
    balance trailer = nameBalance name + balance (ProcLiteral.bodyLines body)

/-- The lines that came add what the lines that went added. -/
def Rewrite.Exchanged (r : Rewrite) (d : Declaration) (ls : List Line) : Prop :=
  balance [(newHeader r.header (d.staying ls r.removed)).render] + balance r.trailer =
    balance (d.headLines ls) + balance (d.takenLines ls r.removed) + balance (d.dissolved ls r.removed)

section

variable {d : Declaration} {ls : List Line} {r : Rewrite} (h : d.Placed ls.length)
include h

theorem Rewrite.balance_lines_iff (hls : ∀ line ∈ ls, '\n' ∉ line) :
    balance (r.lines d ls) = balance (d.ownLines ls) ↔ r.Exchanged d ls := by
  have heq := balance_rebuilt hls h r.header r.removed r.trailer
  unfold Rewrite.Exchanged Rewrite.lines
  constructor
  · intro hsame
    rw [hsame] at heq
    exact (add_left_cancel heq).symm
  · intro hsame
    rw [hsame] at heq
    exact add_right_cancel heq

theorem trails_of_methodBelow {resolver : Option Text} {declared : Bool} {trailer : List Line}
    (hmethod : methodBelow d.signature.name resolver d.signature.indent declared = some trailer) :
    d.Trails trailer := by
  obtain ⟨name, hname, hmethod⟩ := Option.bind_eq_some_iff.1 hmethod
  obtain ⟨resolver, -, hmethod⟩ := Option.bind_eq_some_iff.1 hmethod
  obtain ⟨header, body, hheader, rfl⟩ := resolverMethod_ok (toOption_eq_some_iff.1 hmethod)
  obtain ⟨raw, -, hraw⟩ := Option.bind_eq_some_iff.1 hname
  exact .inr ⟨name, header, body, hname, hheader, rfl,
    balance_methodLines hraw h.signature.indent hheader body⟩

/-- The method below a declaration has the name of the declaration. -/
theorem trails_of_rewrite? {rule : Rule} (hr : d.rewrite? ls rule = some r) : d.Trails r.trailer := by
  cases made_of_rewrite? hr with
  | flat | renamed | pushed => exact .inl rfl
  | flatStatement _ _ _ _ hmethod | flatArgument _ _ _ _ _ _ hmethod | movedStatement _ hmethod
    | movedArgument _ _ hmethod => exact trails_of_methodBelow h hmethod

end

/-- **When the parts of a regular declaration are exchanged for as much.** The delimiters of a block that
goes cancel, and so do the values that go from statements to the header and the resolver that becomes the
body of a method. What is left is the name of the method. -/
theorem Rewrite.Regular.exchanged_iff {d : Declaration} {ls : List Line} {r : Rewrite} {rule : Rule}
    {keyword : String} (hreg : r.Regular d ls) (h : d.rewrite? ls rule = some r)
    (hscan : .declaration d ∈ scan ls keyword) (hk : keyword ∉ BlockEvent.openers)
    (hls : ∀ line ∈ ls, '\n' ∉ line) :
    r.Exchanged d ls ↔ (r.trailer ≠ [] → ∀ name ∈ d.signature.name.bind Name.declared?,
      name ≠ "do".toList ∧ name ≠ "end".toList) := by
  have hvalues := sum_values_rewrite (hreg.neutral fun _ _ hzero => hzero) h
  have hdissolved := hreg.balance_dissolved hscan hls
  have hmethod : balance r.trailer = ((r.moved d ls).map textBalance).sum ↔
      (r.trailer ≠ [] → ∀ name ∈ d.signature.name.bind Name.declared?,
        name ≠ "do".toList ∧ name ≠ "end".toList) := by
    by_cases hnone : r.trailer = []
    · rw [Rewrite.moved, if_pos hnone, hnone]
      exact iff_of_true rfl fun hne => absurd rfl hne
    · obtain ⟨name, hname, hsum⟩ := hreg.balance_trailer h hscan hls hnone
      rw [hsum, add_eq_right, nameBalance_eq_zero_iff, hname]
      constructor
      · intro hword _ found hfound
        obtain rfl := Option.some.inj hfound
        exact hword
      · exact fun hall => hall hnone name rfl
  unfold Rewrite.Exchanged
  rw [hreg.balance_newHeader h hscan hls hk, (hreg.balance_headLines hscan hls hk).2,
    hreg.balance_takenLines h hscan hls, Signature.weight, List.map_append, List.sum_append]
  generalize (r.header.values.map textBalance).sum = new at hvalues ⊢
  generalize (d.signature.values.map textBalance).sum = old at hvalues ⊢
  generalize (r.removed.map fun range => textBalance (valueAt ls range)).sum = taken at hvalues ⊢
  generalize ((r.moved d ls).map textBalance).sum = moved at hvalues hmethod
  generalize (d.signature.block.toList.map textBalance).sum = opening at hdissolved ⊢
  generalize balance (d.dissolved ls r.removed) = closing at hdissolved ⊢
  have hstays : (if d.staying ls r.removed = [] then 0 else opening) = opening + closing := by
    split at hdissolved
    · rename_i hstay
      rw [if_pos hstay, add_comm, hdissolved]
    · rename_i hstay
      rw [if_neg hstay, ← add_zero closing, hdissolved, add_zero]
  have hwent : old + opening + taken + closing = new + (opening + closing) + moved := by
    calc old + opening + taken + closing
        = (old + taken) + (opening + closing) := by abel
      _ = (new + moved) + (opening + closing) := by rw [hvalues]
      _ = new + (opening + closing) + moved := by abel
  rw [hstays, hwent, add_right_inj]
  exact hmethod

example : ∀ d ∈ declarations (Text.lines neighbours) "field",
    ∀ r ∈ d.rewrite? (Text.lines neighbours) .field, r.Regular d (Text.lines neighbours) := by
  decide +kernel

/-- Lines that add as much as those of a declaration leave the blocks around to their ends. -/
theorem keepsEnds_of_balance_eq {d : Declaration} {ls new : List Line}
    (hls : ∀ line ∈ ls, '\n' ∉ line) (h : balance new = balance (d.ownLines ls)) :
    Outline.KeepsEnds (d.ownLines ls) (new.flatMap Text.lines) := by
  have hown : (d.ownLines ls).flatMap Text.lines = d.ownLines ls := by
    apply Text.flatMap_lines
    intro line hline
    exact hls line (List.mem_of_mem_drop (List.mem_of_mem_take hline))
  apply Outline.keepsEnds_of_total_eq
  have hfst := congrArg Prod.fst h
  rw [Outline.balance_fst, Outline.balance_fst, hown] at hfst
  exact hfst.symm

/-- **When a rewritten declaration keeps the depths around it.** If the declarations that are found
share no line, the lines that replace one of them add what its own lines added exactly if the header
and the method that came add what the header, the statements and the `end` that went added; for a regular
declaration, exactly if no method comes that is called `do` or `end`. Then a block around keeps its `end`,
unless the new lines close it on the way. -/
theorem rewritten_balance_iff {e : Editor} (he : e ∈ editors) (ns source : Text)
    (hapart : (declarations (Text.lines source) e.keyword).Pairwise
      fun a b => a.range.Apart b.range) :
    ∃ (plan : Plan) (skipped : List Skip),
      plan.map Prod.fst = declarations (Text.lines source) e.keyword ∧
      (∀ entry ∈ plan, e.revise entry.1 (Text.lines source) = .ok entry.2) ∧
      e.rule.apply ns source =
        .ok ⟨Text.unlines (Lines.replaceRanges (Text.lines source) (replacements plan)),
          plan.countP (alters (Text.lines source)), skipped⟩ ∧
      ∀ entry ∈ plan, ∀ new ∈ entry.2.replacement,
        (∃ r, entry.1.rewrite? (Text.lines source) e.rule = some r ∧
          new = r.lines entry.1 (Text.lines source) ∧ entry.1.Trails r.trailer ∧
          (balance new = balance (entry.1.ownLines (Text.lines source)) ↔
            r.Exchanged entry.1 (Text.lines source)) ∧
          (r.Regular entry.1 (Text.lines source) → (r.Exchanged entry.1 (Text.lines source) ↔
            (r.trailer ≠ [] → ∀ name ∈ entry.1.signature.name.bind Name.declared?,
              name ≠ "do".toList ∧ name ≠ "end".toList)))) ∧
        (balance new = balance (entry.1.ownLines (Text.lines source)) →
          Outline.KeepsEnds (entry.1.ownLines (Text.lines source)) (new.flatMap Text.lines)) := by
  have hl := lawful_of_mem_editors he
  obtain ⟨plan, skipped, hplan, hedit, hall⟩ := handleAll_eq e.rule hl
    (fun f hf => hf) (scan_pairwise (Text.lines source) e.keyword) hapart
  refine ⟨plan, skipped, hplan, hedit, ?_, ?_⟩
  · rw [apply_of_mem_editors he, upgradeAll, hall]
    rfl
  · intro entry hentry new hnew
    have hscan := mem_of_plan hplan hentry
    have hd := placed_of_mem_scan hscan
    have hfeeds : ∀ line ∈ Text.lines source, '\n' ∉ line := fun _ => Text.notMem_of_mem_lines
    have hwords : ∀ e ∈ editors, e.keyword ∉ BlockEvent.openers := by decide
    rw [replacement_eq he hd (hedit entry hentry)] at hnew
    obtain ⟨r, hr, rfl⟩ := Option.map_eq_some_iff.1 hnew
    exact ⟨⟨r, hr, rfl, trails_of_rewrite? hd hr, r.balance_lines_iff hd hfeeds,
      fun hreg => hreg.exchanged_iff hr hscan (hwords e he) hfeeds⟩, keepsEnds_of_balance_eq hfeeds⟩

theorem rewritten_balance_neighbours :
    ((declarations (Text.lines neighbours) "field").Pairwise fun a b => a.range.Apart b.range) ∧
      ∃ (plan : Plan) (skipped : List Skip),
        plan.map Prod.fst = declarations (Text.lines neighbours) "field" ∧
        (∀ entry ∈ plan, flatten .field entry.1 (Text.lines neighbours) = .ok entry.2) ∧
        Rule.field.apply [] neighbours =
          .ok ⟨Text.unlines (Lines.replaceRanges (Text.lines neighbours) (replacements plan)),
            plan.countP (alters (Text.lines neighbours)), skipped⟩ ∧
        ∀ entry ∈ plan, ∀ new ∈ entry.2.replacement,
          (∃ r, entry.1.rewrite? (Text.lines neighbours) .field = some r ∧
            new = r.lines entry.1 (Text.lines neighbours) ∧ entry.1.Trails r.trailer ∧
            (balance new = balance (entry.1.ownLines (Text.lines neighbours)) ↔
              r.Exchanged entry.1 (Text.lines neighbours)) ∧
            (r.Regular entry.1 (Text.lines neighbours) → (r.Exchanged entry.1 (Text.lines neighbours) ↔
              (r.trailer ≠ [] → ∀ name ∈ entry.1.signature.name.bind Name.declared?,
                name ≠ "do".toList ∧ name ≠ "end".toList)))) ∧
          (balance new = balance (entry.1.ownLines (Text.lines neighbours)) →
            Outline.KeepsEnds (entry.1.ownLines (Text.lines neighbours))
              (new.flatMap Text.lines)) :=
  ⟨neighbours_apart,
    rewritten_balance_iff (e := ⟨.field, "field", flatten .field⟩) List.mem_cons_self [] neighbours
      neighbours_apart⟩

/-- A field whose resolver becomes the method `do`, inside a definition. -/
def namedDo : Text :=
  "X = GraphQL::ObjectType.define do\n  field :do, types.Int, resolve: ->(o, a, c) { o.x }\nend".toList

/-- The method `do` opens a block for the scanner, so the definition loses its `end`. The declaration is
regular otherwise. -/
theorem rewritten_unbalanced :
    ((declarations (Text.lines namedDo) "field").Pairwise fun a b => a.range.Apart b.range) ∧
      (∃ d ∈ declarations (Text.lines namedDo) "field", ∃ new skipped,
        flatten .field d (Text.lines namedDo) = .ok ⟨some new, skipped⟩ ∧
        (∃ r, d.rewrite? (Text.lines namedDo) .field = some r ∧ r.Regular d (Text.lines namedDo)) ∧
        balance (d.ownLines (Text.lines namedDo)) = (0, 0) ∧ balance new = (1, 0)) ∧
      (Outline.ofLines (Text.lines namedDo)).matchBlock 0 = some ⟨0, 2⟩ ∧
      ∃ out, Rule.field.apply [] namedDo = .ok out ∧
        (Outline.ofLines (Text.lines out.text)).matchBlock 0 = none := by
  have hedit : (declarations (Text.lines namedDo) "field").any (fun d =>
      (flatten .field d (Text.lines namedDo)).toOption.any fun edit =>
        edit.replacement.any fun new =>
          balance (d.ownLines (Text.lines namedDo)) == (0, 0) && balance new == (1, 0)) = true := by
    decide +kernel
  have hregular : ∀ d ∈ declarations (Text.lines namedDo) "field",
      ∃ r ∈ d.rewrite? (Text.lines namedDo) .field, r.Regular d (Text.lines namedDo) := by
    decide +kernel
  have hout : (Rule.field.apply [] namedDo).toOption.any (fun out =>
      (Outline.ofLines (Text.lines out.text)).matchBlock 0 == none) = true := by decide +kernel
  refine ⟨by decide +kernel, ?_, by decide +kernel, ?_⟩
  · obtain ⟨d, hd, h⟩ := List.any_eq_true.1 hedit
    obtain ⟨⟨replacement, skipped⟩, hflat, h⟩ := (Option.any_eq_true _ _).1 h
    obtain ⟨new, hnew, hbalance⟩ := (Option.any_eq_true _ _).1 h
    obtain rfl : replacement = some new := hnew
    obtain ⟨hold, hnew⟩ := Bool.and_eq_true_iff.1 hbalance
    exact ⟨d, hd, new, skipped, toOption_eq_some_iff.1 hflat, hregular d hd, beq_iff_eq.1 hold,
      beq_iff_eq.1 hnew⟩
  · obtain ⟨out, happly, h⟩ := (Option.any_eq_true _ _).1 hout
    exact ⟨out, toOption_eq_some_iff.1 happly, by simpa using h⟩

end Declaration

end SchemaLift
