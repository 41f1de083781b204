import SchemaLift.Proofs.Token.Stream

/-!
# Constant paths

A constant path such as `GraphQL::ObjectType` is one token wherever nothing follows that could continue
it (`tokenizeCode_constant_append`), and each constant that the scanner finds is such a path
(`constantPath_of_head`).
-/

namespace SchemaLift

namespace Scan

theorem isWordStart_of_isUpper {c : Char} (h : c.isUpper = true) : isWordStart c = true :=
  isWordStart_iff_toNat.2 (Or.inl (isUpper_iff_toNat.1 h))

/-- Words that start in upper case, joined by `::`. -/
inductive ConstantPath : Text → Prop
  | word {c : Char} {stem : Text} (hc : c.isUpper = true) (hs : ∀ d ∈ stem, isWordChar d = true) :
      ConstantPath (c :: stem)
  | nested {c : Char} {stem path : Text} (hc : c.isUpper = true)
      (hs : ∀ d ∈ stem, isWordChar d = true) (hp : ConstantPath path) :
      ConstantPath (c :: (stem ++ ':' :: ':' :: path))

/-! ## How far a path reaches -/

theorem constantTail_wordChar {c : Char} (h : isWordChar c = true) (cs : Text) :
    constantTail (c :: cs) = constantTail cs + 1 := by
  have hcolon : c ≠ ':' := by
    rintro rfl
    exact absurd h (by decide)
  rw [constantTail, if_pos h]
  exact fun _ _ hc => absurd hc hcolon

theorem constantTail_append {stem : Text} (hs : ∀ d ∈ stem, isWordChar d = true) (rest : Text) :
    constantTail (stem ++ rest) = constantTail rest + stem.length := by
  induction stem with
  | nil => rfl
  | cons c cs ih =>
    rw [List.cons_append, constantTail_wordChar (hs c List.mem_cons_self),
      ih fun d hd => hs d (List.mem_cons_of_mem c hd), List.length_cons, Nat.add_assoc]

theorem constantTail_of_delimits {rest : Text} (h : Delimits rest) : constantTail rest = 0 := by
  cases rest with
  | nil => rfl
  | cons d ds =>
    obtain ⟨hword, hcolon, -⟩ := h d rfl
    rw [constantTail, hword, if_neg Bool.false_ne_true]
    exact fun _ _ hd => absurd hd hcolon

/-- A path reaches as far as its own characters. -/
theorem ConstantPath.exists_cons {path : Text} (h : ConstantPath path) :
    ∃ c tail, path = c :: tail ∧ c.isUpper = true ∧
      (∀ rest, Delimits rest → constantTail (tail ++ rest) = tail.length) ∧
      ((∀ d ∈ tail, isWordChar d = true) ∨
        ∀ rest, run isWordChar (tail ++ rest) < tail.length) := by
  induction h with
  | @word c stem hc hs =>
    refine ⟨c, stem, rfl, hc, fun rest hr => ?_, Or.inl hs⟩
    rw [constantTail_append hs, constantTail_of_delimits hr, Nat.zero_add]
  | @nested c stem path hc hs _ ih =>
    obtain ⟨d, tail, rfl, hd, htail, -⟩ := ih
    refine ⟨c, _, rfl, hc, fun rest hr => ?_, Or.inr fun rest => ?_⟩
    · rw [List.append_assoc, constantTail_append hs, List.length_append]
      simp only [List.cons_append, constantTail, hd, ↓reduceIte, htail rest hr, List.length_cons]
      omega
    · rw [List.append_assoc, run_append hs, List.length_append, run_of_head]
      · simp
      · intro e he
        cases he
        decide

theorem ConstantPath.append {path tail : Text} (h : ConstantPath path) (ht : ConstantPath tail) :
    ConstantPath (path ++ "::".toList ++ tail) := by
  induction h with
  | @word c stem hc hs =>
    have happ : c :: stem ++ "::".toList ++ tail = c :: (stem ++ ':' :: ':' :: tail) := by simp
    rw [happ]
    exact .nested hc hs ht
  | @nested c stem path hc hs _ ih =>
    have happ : c :: (stem ++ ':' :: ':' :: path) ++ "::".toList ++ tail =
        c :: (stem ++ ':' :: ':' :: (path ++ "::".toList ++ tail)) := by simp
    rw [happ]
    exact .nested hc hs ih

/-- What a constant's tail reaches over makes a path. -/
theorem constantPath_take {c : Char} {stem : Text} (hc : c.isUpper = true)
    (hs : ∀ d ∈ stem, isWordChar d = true) (cs : Text) :
    ConstantPath (c :: (stem ++ cs.take (constantTail cs))) := by
  induction cs using constantTail.induct generalizing c stem with
  | case1 d cs hd ih =>
    have htake : (':' :: ':' :: d :: cs).take (constantTail (':' :: ':' :: d :: cs)) =
        ':' :: ':' :: d :: cs.take (constantTail cs) := by
      rw [constantTail, if_pos hd]
      rfl
    rw [htake]
    have hnil : ∀ e ∈ ([] : Text), isWordChar e = true := by simp
    exact .nested hc hs (ih hd hnil)
  | case2 d cs hd =>
    rw [constantTail, if_neg hd, List.take_zero, List.append_nil]
    exact .word hc hs
  | case3 d cs _ hd ih =>
    have hstem : ∀ e ∈ stem ++ [d], isWordChar e = true := by
      intro e he
      rcases List.mem_append.1 he with he | he
      · exact hs e he
      · rwa [List.mem_singleton.1 he]
    rw [constantTail_wordChar hd, List.take_succ_cons, List.append_cons]
    exact ih hc hstem
  | case4 d cs hnot hd =>
    rw [constantTail, if_neg hd, List.take_zero, List.append_nil]
    · exact .word hc hs
    · exact hnot
  | case5 =>
    rw [List.take_nil, List.append_nil]
    exact .word hc hs

theorem ConstantPath.forall_mem {path : Text} (h : ConstantPath path) :
    ∀ d ∈ path, isWordChar d = true ∨ d = ':' := by
  have hstart : ∀ {c : Char}, c.isUpper = true → isWordChar c = true := fun hc =>
    isWordChar_iff_toNat.2 (Or.inr (Or.inl (isUpper_iff_toNat.1 hc)))
  induction h with
  | word hc hs =>
    intro d hd
    rcases List.mem_cons.1 hd with rfl | hd
    · exact Or.inl (hstart hc)
    · exact Or.inl (hs d hd)
  | nested hc hs _ ih =>
    intro d hd
    simp only [List.mem_cons, List.mem_append] at hd
    rcases hd with rfl | hd | rfl | rfl | hd
    · exact Or.inl (hstart hc)
    · exact Or.inl (hs d hd)
    · exact Or.inr rfl
    · exact Or.inr rfl
    · exact ih d hd

theorem ConstantPath.notMem {path : Text} (h : ConstantPath path) : '\n' ∉ path := by
  intro hn
  rcases h.forall_mem _ hn with hd | hd <;> revert hd <;> decide

/-! ## The token -/

theorem ConstantPath.pieces_append {path : Text} (h : ConstantPath path) {rest : Text}
    (hr : Delimits rest) : pieces (path ++ rest) = ⟨some .constant, path⟩ :: pieces rest := by
  obtain ⟨c, tail, rfl, hc, htail, hrun⟩ := h.exists_cons
  apply pieces_of_head
  rw [head_of_isWordStart (isWordStart_of_isUpper hc)]
  unfold Scan.word
  simp only [hc, Bool.true_and, decide_eq_true_eq, htail rest hr, ↓reduceIte]
  split
  · rfl
  rename_i hlong
  have hword : ∀ d ∈ tail, isWordChar d = true :=
    hrun.resolve_right fun hshort => hlong (hshort rest)
  have hn : run isWordChar (tail ++ rest) = tail.length := by
    rw [run_append hword, run_of_head fun d hd => (hr d hd).1, Nat.add_zero]
  rw [hn, List.drop_left]
  split
  · exact absurd rfl (hr ':' rfl).2.1
  · exact absurd rfl (hr '?' rfl).2.2.1
  · exact absurd rfl (hr '!' rfl).2.2.2
  · rfl

/-- Every constant of the scanner is a path. -/
theorem constantPath_of_head {c : Char} {cs : Text} (h : (head c cs).1 = some .constant) :
    ConstantPath (c :: cs.take (head c cs).2) := by
  have hword := isWordStart_of_head h rfl
  rw [head_of_isWordStart hword] at h ⊢
  have hk : (word c cs).1 = .constant := Option.some.inj h
  have hstem : ∀ d ∈ cs.take (run isWordChar cs), isWordChar d = true := by
    intro d hd
    rw [take_run] at hd
    exact List.mem_takeWhile_imp hd
  revert hk
  unfold word
  extract_lets n path
  split
  · rename_i hpath
    intro _
    have hc : c.isUpper = true := (Bool.and_eq_true_iff.1 hpath).1
    have hnil : ∀ e ∈ ([] : Text), isWordChar e = true := by simp
    exact constantPath_take hc hnil cs
  split
  · rintro ⟨⟩
  · rintro ⟨⟩
  · rintro ⟨⟩
  split
  · rename_i hc
    intro _
    exact .word hc hstem
  -- what is left is in lower case
  split
  · rintro ⟨⟩
  · rintro ⟨⟩
  split
  · rintro ⟨⟩
  · split <;> rintro ⟨⟩

end Scan

theorem tokenize_constant_append {path : Text} (h : Scan.ConstantPath path) {rest : Text}
    (hr : Scan.Delimits rest) :
    tokenize (path ++ rest) = ⟨[], .constant, path⟩ :: tokenize rest :=
  tokenize_of_pieces (h.pieces_append hr)

theorem tokenizeCode_constant_append {path : Text} (h : Scan.ConstantPath path) {rest : Text}
    (hr : Scan.Delimits rest) :
    tokenizeCode (path ++ rest) = ⟨[], .constant, path⟩ :: tokenizeCode rest :=
  tokenizeCode_of_pieces TokenKind.noConfusion (h.pieces_append hr)

theorem constantPath_of_mem_tokenizeCode {s : Text} {t : Token} (h : t ∈ tokenizeCode s)
    (hk : t.kind = .constant) : Scan.ConstantPath t.text := by
  have hp := mem_pieces_of_mem_tokenizeCode h
  rw [hk] at hp
  obtain ⟨c, cs, hkind, htext⟩ := Scan.head_of_mem_pieces hp
  rw [htext]
  exact Scan.constantPath_of_head hkind

end SchemaLift
