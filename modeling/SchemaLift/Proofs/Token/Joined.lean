import SchemaLift.Proofs.Token.Slice
import SchemaLift.Text.Lines

/-!
# Tokens of joined lines

Blocks are matched line by line, while statements and lists are read from lines that are joined again.
As long as no quote is left open on a line, both see the same tokens at the same places
(`placedTokens_unlines`).
-/

namespace SchemaLift

/-! ## Places behind a text -/

@[simp] theorem PlacedToken.shift_zero : PlacedToken.shift 0 = id := by
  funext t
  simp [PlacedToken.shift]

@[simp] theorem PlacedToken.shift_shift (m n : Nat) (t : PlacedToken) :
    (t.shift n).shift m = t.shift (m + n) := by
  simp [PlacedToken.shift, Nat.add_assoc]

theorem Token.placed_addGap (offset : Nat) (g : Text) (ts : List Token) :
    placed offset (addGap g ts) = placed (offset + Text.utf8Size g) ts := by
  cases ts <;> simp [full, Text.utf8Size_append, Nat.add_assoc]

theorem Token.placed_dropComments (offset : Nat) (g : Text) (ts : List Token) :
    placed offset (dropComments g ts) =
      (placed (offset + Text.utf8Size g) ts).filter (·.kind ≠ .comment) := by
  induction ts generalizing offset g with
  | nil => rfl
  | cons t ts ih =>
    rw [dropComments]
    split
    · rename_i hk
      simp [ih, hk, Text.utf8Size_append, Nat.add_assoc]
    · rename_i hk
      simp [ih, hk, full, Text.utf8Size_append, Text.utf8Size, Nat.add_assoc]

/-- The tokens of a text at their places, comments left out. -/
def placedCode (s : Text) : List PlacedToken := Token.placed 0 (tokenizeCode s)

theorem placedCode_eq_filter (s : Text) :
    placedCode s = (placedTokens s).filter (·.kind ≠ .comment) :=
  Token.placed_dropComments 0 [] (tokenize s)

theorem placedTokens_blank_append {ws : Text} (h : ∀ c ∈ ws, Text.isBlankChar c = true) (s : Text) :
    placedTokens (ws ++ s) = (placedTokens s).map (.shift (Text.utf8Size ws)) := by
  rw [placedTokens, tokenize_blank_append h, Token.placed_addGap, Nat.add_comm, Token.placed_add]
  rfl

theorem placedTokens_append {s rest : Text} (hquotes : QuotesInTokens s)
    (hstop : ∀ c ∈ rest.head?, Scan.Stops c)
    (hcomment : (∃ t ∈ tokenize s, t.kind = .comment) → Scan.EndsLine rest) :
    placedTokens (s ++ rest) =
      placedTokens s ++ (placedTokens rest).map (.shift (Text.utf8Size s)) := by
  have hsize : Text.utf8Size ((tokenize s).flatMap Token.full) +
      Text.utf8Size (TokenStream.ofText s).tail = Text.utf8Size s := by
    rw [← Text.utf8Size_append]
    exact congrArg Text.utf8Size (TokenStream.toText_ofText s)
  rw [placedTokens, tokenize_append hquotes hstop hcomment, Token.placed_append, Token.placed_addGap,
    Nat.zero_add, hsize, ← Nat.add_zero (Text.utf8Size s), Token.placed_add]
  rfl

/-! ## Lines -/

/-- The byte where line `index` starts in the text that the lines make. -/
def Lines.offset (ls : List Line) (index : Nat) : Nat :=
  Text.utf8Size ((ls.take index).flatMap (· ++ ['\n']))

@[simp] theorem Lines.offset_zero (ls : List Line) : offset ls 0 = 0 := rfl

@[simp] theorem Lines.offset_cons_succ (line : Line) (ls : List Line) (index : Nat) :
    offset (line :: ls) (index + 1) = Text.utf8Size line + 1 + offset ls index := by
  rw [offset, List.take_succ_cons, List.flatMap_cons, Text.utf8Size_append, Text.utf8Size_append]
  rfl

/-- The text that lines make is what is above one of them, the line, and what is below. -/
theorem Lines.exists_unlines_append {ls : List Line} {index : Nat} {line : Line}
    (h : ls[index]? = some line) : ∃ above below,
      Text.unlines ls = above ++ line ++ below ∧ offset ls index = Text.utf8Size above := by
  induction ls generalizing index with
  | nil => cases h
  | cons first rest ih =>
    cases index with
    | zero =>
      obtain rfl := Option.some.inj h
      cases rest with
      | nil => exact ⟨[], [], (List.append_nil first).symm, rfl⟩
      | cons second rest => exact ⟨[], '\n' :: Text.unlines (second :: rest), rfl, rfl⟩
    | succ index =>
      obtain ⟨above, below, hunlines, hoffset⟩ := ih h
      obtain ⟨second, rest, rfl⟩ : ∃ second others, rest = second :: others := by
        cases rest with
        | nil => cases h
        | cons second rest => exact ⟨second, rest, rfl⟩
      refine ⟨first ++ '\n' :: above, below, ?_, ?_⟩
      · have hjoin : Text.unlines (first :: second :: rest) =
            first ++ '\n' :: Text.unlines (second :: rest) := rfl
        rw [hjoin, hunlines]
        simp
      · rw [offset_cons_succ, hoffset, Text.utf8Size_append, Text.utf8Size, Nat.add_assoc]
        rfl

/-- What a reader finds on each of some lines alone, at the places that the lines have together. -/
def Lines.placedEach (read : Line → List PlacedToken) (ls : List Line) : List PlacedToken :=
  ls.zipIdx.flatMap fun line => (read line.1).map (.shift (Lines.offset ls line.2))

theorem Lines.placedEach_cons (read : Line → List PlacedToken) (line : Line) (ls : List Line) :
    placedEach read (line :: ls) =
      read line ++ (placedEach read ls).map (.shift (Text.utf8Size line + 1)) := by
  rw [placedEach, List.zipIdx_cons', List.flatMap_cons, List.flatMap_map]
  simp [placedEach, List.map_flatMap, Function.comp_def]

theorem Lines.placedEach_filter (read : Line → List PlacedToken) (p : TokenKind → Bool)
    (ls : List Line) : (placedEach read ls).filter (fun t => p t.kind) =
      placedEach (fun line => (read line).filter fun t => p t.kind) ls := by
  simp [placedEach, List.filter_flatMap, List.filter_map, Function.comp_def, PlacedToken.shift]

theorem placedTokens_lineFeed (s : Text) :
    placedTokens ('\n' :: s) = (placedTokens s).map (.shift 1) := by
  have hblank : ∀ c ∈ ['\n'], Text.isBlankChar c = true := List.all_eq_true.1 (by decide)
  exact placedTokens_blank_append hblank s

/-- Read line by line, a text has the tokens that it has as a whole, with and without comments. -/
theorem placedTokens_unlines {ls : List Line} (hquotes : ∀ line ∈ ls, QuotesInTokens line) :
    placedTokens (Text.unlines ls) = Lines.placedEach placedTokens ls ∧
      placedCode (Text.unlines ls) = Lines.placedEach placedCode ls := by
  have htokens : placedTokens (Text.unlines ls) = Lines.placedEach placedTokens ls := by
    induction ls with
    | nil => rfl
    | cons line rest ih =>
      rw [Lines.placedEach_cons]
      obtain ⟨hline, hrest⟩ := List.forall_mem_cons.1 hquotes
      cases rest with
      | nil => simp [Text.unlines, Text.joinWith, Lines.placedEach]
      | cons second rest =>
        have hjoin : Text.unlines (line :: second :: rest) =
            line ++ '\n' :: Text.unlines (second :: rest) := rfl
        have hstop : Scan.Stops '\n' := by decide
        rw [hjoin, placedTokens_append hline (by simpa using hstop) fun _ => .inr rfl,
          placedTokens_lineFeed, ih hrest]
        simp [Function.comp_def]
  refine ⟨htokens, ?_⟩
  rw [placedCode_eq_filter, htokens, Lines.placedEach_filter _ fun kind => kind ≠ .comment]
  exact congrArg (Lines.placedEach · ls) (funext fun line => (placedCode_eq_filter line).symm)

/-- Quotes in a comment, a statement that goes on behind a backslash, and a carriage return. -/
theorem placedTokens_unlines_continued :
    let ls := ["field :a, # it's".toList, "  \"#\x7bb ? '\"' : c\x7d\" \\".toList, "  + 'é'\r".toList]
    (∀ line ∈ ls, QuotesInTokens line) ∧
      placedTokens (Text.unlines ls) = Lines.placedEach placedTokens ls ∧
      placedCode (Text.unlines ls) = Lines.placedEach placedCode ls := by
  intro ls
  have hquotes : ∀ line ∈ ls, QuotesInTokens line := by decide
  exact ⟨hquotes, placedTokens_unlines hquotes⟩

end SchemaLift
