import SchemaLift.Declaration.Scan
import SchemaLift.Proofs.Block.Outline
import SchemaLift.Proofs.Call.Signature
import SchemaLift.Proofs.Text.Lines
import SchemaLift.Proofs.Token.FirstWord

/-!
# Where the found declarations lie

A scan goes from top to bottom and finds each header below the one before it (`scan_pairwise`). What
it finds lies in the text: the header starts on a line that names the keyword, its block starts where
the header ends, and the statements of the block lie strictly inside it (`placed_of_mem_scan`).
-/

namespace SchemaLift.Declaration

/-- The lines of a declaration and of its parts, in a text of `count` lines. -/
structure Placed (d : Declaration) (count : Nat) : Prop where
  start_le : d.start ≤ d.headerEnd
  block : ∀ b ∈ d.block, b.start = d.headerEnd ∧ b.start ≤ b.stop
  stop_lt : d.stop < count
  children : ∀ r ∈ d.children,
    ∃ b ∈ d.block, b.start < r.first ∧ r.first ≤ r.last ∧ r.last < b.stop
  signature : d.signature.Headed

namespace Placed

variable {d : Declaration} {count : Nat} (h : d.Placed count)
include h

theorem headerEnd_le : d.headerEnd ≤ d.stop := by
  unfold stop
  split
  · rename_i b hb
    obtain ⟨hstart, hle⟩ := h.block b hb
    omega
  · exact Nat.le_refl _

theorem start_le_stop : d.start ≤ d.stop := Nat.le_trans h.start_le h.headerEnd_le

theorem fits : d.range.fits count = true := by
  have := h.start_le_stop
  have := h.stop_lt
  rw [LineRange.fits_iff]
  show d.start ≤ d.stop + 1 ∧ d.stop < count
  omega

theorem child_bounds {r : LineRange} (hr : r ∈ d.children) :
    d.start < r.first ∧ r.first ≤ r.last ∧ r.last < d.stop := by
  obtain ⟨b, hb, hfirst, hle, hlast⟩ := h.children r hr
  have hstart := (h.block b hb).1
  have := h.start_le
  have hstop : d.stop = b.stop := by
    unfold stop
    rw [hb]
  omega

end Placed

/-! ## Locating one declaration -/

/-- What is read of a located declaration: its header, which ends where the outline says, and the block
that the header opens with the statements directly inside. -/
theorem locate_cases {lines : List Line} {outline : Outline} {keyword : String} {start : Nat}
    {d : Declaration} (h : locate lines outline keyword start = .ok d) :
    d.start = start ∧
    Signature.parse (Lines.extent lines start d.headerEnd) = some d.signature ∧
    (outline.headerEnd start = some d.headerEnd ∨ outline.statementEnd start = some d.headerEnd) ∧
    (d.block = none ∧ d.children = [] ∨
      ∃ b, d.block = some b ∧ outline.matchBlock d.headerEnd = some b ∧
        d.children = outline.children b) := by
  unfold locate at h
  extract_lets unterminated unbalanced parse at h
  have hparse : ∀ {last s}, parse last = .ok s →
      Signature.parse (Lines.extent lines start last) = some s := by
    intro last s hs
    simp only [parse] at hs
    split at hs
    · rename_i s' hs'
      rw [hs', Except.ok.inj hs]
    · cases hs
  split at h
  · cases h
  rename_i headerEnd hend
  obtain ⟨signature, hsignature, h⟩ := bind_eq_ok_iff.1 h
  split at h
  · -- no block of its own
    obtain rfl := Except.ok.inj h
    exact ⟨rfl, hparse hsignature, .inl hend, .inl ⟨rfl, rfl⟩⟩
  split at h
  · split at h
    · rename_i b hb
      obtain rfl := Except.ok.inj h
      exact ⟨rfl, hparse hsignature, .inl hend, .inr ⟨b, rfl, hb, rfl⟩⟩
    · cases h
  · -- a proc on the header line opens the block
    split at h
    · cases h
    rename_i last hlast
    obtain ⟨signature', hsignature', h⟩ := bind_eq_ok_iff.1 h
    obtain rfl := Except.ok.inj h
    exact ⟨rfl, hparse hsignature', .inr hlast, .inl ⟨rfl, rfl⟩⟩

/-- A located declaration starts where it was looked for and lies in the text. -/
theorem placed_of_locate {lines : List Line} {keyword : String} {start : Nat} {d : Declaration}
    (h : locate lines (Outline.ofLines lines) keyword start = .ok d) :
    d.start = start ∧ d.Placed lines.length := by
  obtain ⟨rfl, hparse, hend, hblock⟩ := locate_cases h
  have hhead := Signature.parse_headed hparse
  have hbounds : d.start ≤ d.headerEnd ∧ d.headerEnd < lines.length := by
    rw [← Outline.length_ofLines]
    exact hend.elim Outline.headerEnd_bounds Outline.statementEnd_bounds
  refine ⟨rfl, hbounds.1, ?_, ?_, ?_, hhead⟩
  all_goals rcases hblock with ⟨hnone, hchildren⟩ | ⟨b, hsome, hmatch, hchildren⟩
  · rw [hnone]
    rintro b ⟨⟩
  · obtain ⟨hstart, hstop, -⟩ := Outline.matchBlock_bounds hmatch
    rw [hsome]
    intro b' hb'
    obtain rfl := Option.some.inj hb'
    exact ⟨hstart, by omega⟩
  · rw [stop, hnone]
    exact hbounds.2
  · obtain ⟨-, -, hcount⟩ := Outline.matchBlock_bounds hmatch
    rw [Outline.length_ofLines] at hcount
    rw [stop, hsome]
    exact hcount
  · rw [hchildren]
    rintro r ⟨⟩
  · rw [hsome, hchildren]
    exact fun r hr => ⟨b, rfl, Outline.mem_children hr⟩

/-- The block of a declaration is the one that its header opens. -/
theorem matchBlock_of_locate {lines : List Line} {outline : Outline} {keyword : String}
    {start : Nat} {d : Declaration} (h : locate lines outline keyword start = .ok d) {b : Block}
    (hb : d.block = some b) : outline.matchBlock d.headerEnd = some b := by
  obtain ⟨-, -, -, ⟨hnone, -⟩ | ⟨b', hsome, hmatch, -⟩⟩ := locate_cases h
  · rw [hnone] at hb
    cases hb
  · rw [hsome] at hb
    obtain rfl := Option.some.inj hb
    exact hmatch

/-- The statements of a located declaration share no line. -/
theorem children_pairwise_of_locate {lines : List Line} {outline : Outline} {keyword : String}
    {start : Nat} {d : Declaration} (h : locate lines outline keyword start = .ok d) :
    d.children.Pairwise fun a b => a.last < b.first := by
  obtain ⟨-, -, -, ⟨-, hchildren⟩ | ⟨b, -, -, hchildren⟩⟩ := locate_cases h
  · rw [hchildren]
    exact .nil
  · rw [hchildren]
    exact outline.children_pairwise b

/-! ## Scanning a text -/

namespace Found

/-- The line on which a find begins. -/
def place : Found → Nat
  | declaration d => d.start
  | failed index _ => index

/-- The last line that the scan takes for a find. -/
def last : Found → Nat
  | declaration d => d.headerEnd
  | failed index _ => index

def declaration? : Found → Option Declaration
  | declaration d => some d
  | failed _ _ => none

end Found

section

variable {lines : List Line} {keyword : String}

/-- What a find says about the text: its line starts a call of the keyword, and a declaration is the
one that is located there. -/
def Found.Genuine (lines : List Line) (keyword : String) (found : Found) : Prop :=
  (∃ line, lines[found.place]? = some line ∧ startsOn keyword line = true) ∧
    ∀ d ∈ found.declaration?, locate lines (Outline.ofLines lines) keyword d.start = .ok d

theorem mem_scanFrom {taken index : Nat} {rest : List Line} (hrest : lines.drop index = rest)
    {found : Found}
    (h : found ∈ scanFrom lines (Outline.ofLines lines) keyword taken index rest) :
    index + taken ≤ found.place ∧ found.Genuine lines keyword := by
  induction rest generalizing taken index with
  | nil => cases h
  | cons line rest ih =>
    have hline := getElem?_of_drop_eq_cons hrest
    have hnext := drop_succ_of_drop_eq_cons hrest
    cases taken with
    | succ taken =>
      obtain ⟨hplace, hgenuine⟩ := ih hnext h
      exact ⟨by omega, hgenuine⟩
    | zero =>
      rw [scanFrom] at h
      split at h
      · rename_i hstarts
        split at h
        · rename_i d hd
          rcases List.mem_cons.1 h with rfl | h
          · have hstart := (placed_of_locate hd).1
            refine ⟨Nat.le_of_eq hstart.symm, ⟨line, ?_, hstarts⟩, ?_⟩
            · show lines[d.start]? = some line
              rw [hstart, hline]
            · intro d' hd'
              cases hd'
              rw [hstart, hd]
          · obtain ⟨hplace, hgenuine⟩ := ih hnext h
            exact ⟨by omega, hgenuine⟩
        · rcases List.mem_cons.1 h with rfl | h
          · exact ⟨Nat.le_refl _, ⟨line, hline, hstarts⟩, by rintro d ⟨⟩⟩
          · obtain ⟨hplace, hgenuine⟩ := ih hnext h
            exact ⟨by omega, hgenuine⟩
      · obtain ⟨hplace, hgenuine⟩ := ih hnext h
        exact ⟨by omega, hgenuine⟩

theorem scanFrom_pairwise {taken index : Nat} {rest : List Line}
    (hrest : lines.drop index = rest) :
    (scanFrom lines (Outline.ofLines lines) keyword taken index rest).Pairwise
      fun a b => a.last < b.place := by
  induction rest generalizing taken index with
  | nil => exact .nil
  | cons line rest ih =>
    have hnext := drop_succ_of_drop_eq_cons hrest
    cases taken with
    | succ taken => exact ih hnext
    | zero =>
      rw [scanFrom]
      split
      · split
        · rename_i d hd
          obtain ⟨hstart, hplaced⟩ := placed_of_locate hd
          refine .cons ?_ (ih hnext)
          intro b hb
          have hplace := (mem_scanFrom hnext hb).1
          have hle := hplaced.start_le
          show d.headerEnd < b.place
          omega
        · refine .cons ?_ (ih hnext)
          intro b hb
          exact (mem_scanFrom hnext hb).1
      · exact ih hnext

theorem startsOn_eq_false {line : Line}
    (h : (tokenizeCode line).head?.any (·.isWord keyword) = false) :
    startsOn keyword line = false := by
  unfold startsOn
  split
  · rename_i first next rest htokens
    have hfirst : first.isWord keyword = false := by
      rw [htokens] at h
      exact h
    rw [hfirst, Bool.false_and]
  · rfl

theorem scanFrom_eq_nil {outline : Outline} {index : Nat} {rest : List Line}
    (h : ∀ line ∈ rest, startsOn keyword line = false) :
    scanFrom lines outline keyword 0 index rest = [] := by
  induction rest generalizing index with
  | nil => rfl
  | cons line rest ih =>
    rw [scanFrom, h line List.mem_cons_self, if_neg Bool.false_ne_true]
    exact ih fun l hl => h l (List.mem_cons_of_mem line hl)

theorem scan_eq_nil (h : ∀ line ∈ lines, startsOn keyword line = false) :
    scan lines keyword = [] :=
  scanFrom_eq_nil h

/-- Each find begins below the header of the one before it. -/
theorem scan_pairwise (lines : List Line) (keyword : String) :
    (scan lines keyword).Pairwise fun a b => a.last < b.place :=
  scanFrom_pairwise rfl

theorem genuine_of_mem_scan {found : Found} (h : found ∈ scan lines keyword) :
    found.Genuine lines keyword :=
  (mem_scanFrom rfl h).2

theorem placed_of_mem_scan {d : Declaration} (h : .declaration d ∈ scan lines keyword) :
    d.Placed lines.length :=
  (placed_of_locate ((genuine_of_mem_scan h).2 d rfl)).2

/-- The call of a declaration that is found starts with the word that was looked for. -/
theorem keyword_of_mem_scan {d : Declaration} (h : .declaration d ∈ scan lines keyword) :
    d.signature.keyword = keyword.toList := by
  obtain ⟨⟨line, hline, hstarts⟩, hlocate⟩ := genuine_of_mem_scan h
  obtain ⟨-, hparse, -⟩ := locate_cases (hlocate d rfl)
  have hle := (placed_of_mem_scan h).start_le
  -- the first token is on the first line, and there it is the word that was looked for
  have hfirst : (tokenizeCode line).head?.any (·.isWord keyword) = true := by
    rw [← Bool.not_eq_false]
    intro hno
    rw [startsOn_eq_false hno] at hstarts
    cases hstarts
  have hown : (tokenizeCode line).head?.any (·.isWord (String.ofList d.signature.keyword)) = true := by
    have hhead : (tokenizeCode (Lines.extent lines d.start d.headerEnd)).head?.any
        (·.isWord (String.ofList d.signature.keyword)) = true := by
      obtain ⟨p, hp⟩ := Signature.exists_parts hparse
      have hkeyword : p.keyword.isWord (String.ofList d.signature.keyword) = true := by
        rw [Token.isWord, hp.cuts.keyword, String.toList_ofList, hp.keyword]
        simp
      rw [hp.cuts.tokens, Signature.Parts.call]
      cases p.parens <;> exact hkeyword
    have hcode : tokenizeCode line ≠ [] := by
      intro hnil
      rw [hnil] at hfirst
      cases hfirst
    have hcount : d.headerEnd + 1 - d.start = (d.headerEnd - d.start) + 1 := by omega
    obtain ⟨hlt, rfl⟩ := List.getElem?_eq_some_iff.1 hline
    have hdrop : lines.drop d.start = _ := List.drop_eq_getElem_cons hlt
    rw [Lines.extent, hdrop, hcount, List.take_succ_cons] at hhead
    exact head?_isWord_unlines hcode hhead
  obtain ⟨t, ht, hk⟩ := (Option.any_eq_true _ _).1 hfirst
  rw [ht, Option.any_some] at hown
  rw [Token.isWord, Bool.and_eq_true, beq_iff_eq, beq_iff_eq] at hk hown
  rw [← hk.2, hown.2, String.toList_ofList]

end

end SchemaLift.Declaration
