import SchemaLift.Proofs.Token.Bracket
import SchemaLift.Proofs.Token.Constant
import SchemaLift.Type.Expression

/-!
# The tokens of a type expression

Tokens that are read as a type expression are of few kinds, and their brackets balance
(`stretch_of_ofTokens`). The name at the core of the expression is a constant path under its canonical
name, with method calls after it (`base_of_ofTokens`).
-/

namespace SchemaLift

theorem Scalar.constantPath_canonical {name : Text} (h : Scan.ConstantPath name) :
    Scan.ConstantPath (canonical name) := by
  unfold canonical
  split
  · rename_i entry hfind
    have hall : ∀ entry ∈ aliases, Scan.ConstantPath entry.2.toList := by
      intro entry hentry
      simp only [aliases, List.mem_cons, List.not_mem_nil, or_false] at hentry
      rcases hentry with rfl | rfl | rfl | rfl | rfl | rfl | rfl <;>
        exact .word (by decide) (List.all_eq_true.1 (by decide))
    exact hall entry (List.mem_of_find?_eq_some hfind)
  · exact h

namespace TypeExpression

/-- The kinds of tokens that a type expression is made of. -/
def tokenKinds : List TokenKind :=
  [.bang, .arrow, .lbrace, .rbrace, .lbracket, .rbracket, .dot, .constant, .identifier]

/-- Tokens of a part of a type expression, with the bracket depth before and after them. -/
structure Stretch (depth : Nat) (ts : List Token) (d : Nat) : Prop where
  kinds : ∀ t ∈ ts, t.kind ∈ tokenKinds
  depth : Token.depthPast depth ts = some d

namespace Stretch

theorem nil (depth : Nat) : Stretch depth [] depth := ⟨by rintro t ⟨⟩, rfl⟩

theorem append {depth d e : Nat} {a b : List Token} (ha : Stretch depth a d)
    (hb : Stretch d b e) : Stretch depth (a ++ b) e := by
  refine ⟨fun t ht => ?_, ?_⟩
  · rcases List.mem_append.1 ht with ht | ht
    · exact ha.kinds t ht
    · exact hb.kinds t ht
  · rw [Token.depthPast_append, ha.depth, Option.bind_some, hb.depth]

/-- A token that is no bracket. -/
theorem flat {t : Token} (h : t.kind ∈ [TokenKind.bang, .arrow, .dot, .constant, .identifier])
    (depth : Nat) : Stretch depth [t] depth := by
  simp only [List.mem_cons, List.not_mem_nil, or_false] at h
  refine ⟨fun u hu => ?_, ?_⟩
  · obtain rfl := List.mem_singleton.1 hu
    rcases h with h | h | h | h | h <;> rw [h] <;> decide
  · rcases h with h | h | h | h | h <;>
      simp [Token.depthPast, h, TokenKind.opensBracket, TokenKind.closesBracket]

theorem opening {t : Token} (h : t.kind = .lbracket ∨ t.kind = .lbrace) (depth : Nat) :
    Stretch depth [t] (depth + 1) := by
  refine ⟨fun u hu => ?_, ?_⟩
  · obtain rfl := List.mem_singleton.1 hu
    rcases h with h | h <;> rw [h] <;> decide
  · rcases h with h | h <;> simp [Token.depthPast, h, TokenKind.opensBracket]

theorem closing {t : Token} (h : t.kind = .rbracket ∨ t.kind = .rbrace) (depth : Nat) :
    Stretch (depth + 1) [t] depth := by
  refine ⟨fun u hu => ?_, ?_⟩
  · obtain rfl := List.mem_singleton.1 hu
    rcases h with h | h <;> rw [h] <;> decide
  · rcases h with h | h <;>
      simp [Token.depthPast, h, TokenKind.opensBracket, TokenKind.closesBracket]

end Stretch

/-- A constant path with method calls after it. -/
inductive Base : Text → Prop
  | constant {path : Text} (h : Scan.ConstantPath path) : Base path
  | method {base name : Text} (hb : Base base) (hn : Scan.Identifier name) :
      Base (base ++ '.' :: name)

/-- The words among tokens are what the scanner takes for words. -/
def Worded (ts : List Token) : Prop :=
  ∀ t ∈ ts, (t.kind = .constant → Scan.ConstantPath t.text) ∧
    (t.kind = .identifier → Scan.Identifier t.text)

theorem worded_tokenizeCode (s : Text) : Worded (tokenizeCode s) := fun _ ht =>
  ⟨constantPath_of_mem_tokenizeCode ht, identifier_of_mem_tokenizeCode ht⟩

theorem Worded.right {a b : List Token} (h : Worded (a ++ b)) : Worded b := fun t ht =>
  h t (List.mem_append_right a ht)

theorem Worded.tail {t : Token} {ts : List Token} (h : Worded (t :: ts)) : Worded ts := fun u hu =>
  h u (List.mem_cons_of_mem t hu)

/-! ## Parts of an expression -/

/-- The number of lists among wrappers. -/
def lists (outer : List Wrapper) : Nat := outer.count .list

theorem kind_of_isWord {t : Token} {word : String} (h : t.isWord word = true) :
    t.kind = .identifier := by
  unfold Token.isWord at h
  exact beq_iff_eq.1 (Bool.and_eq_true_iff.1 h).1

theorem wrappers_spec {outer outer' : List Wrapper} {ts rest : List Token}
    (h : wrappers outer ts = (outer', rest)) :
    ∃ part, ts = part ++ rest ∧ lists outer ≤ lists outer' ∧
      ∀ depth, Stretch (depth + lists outer) part (depth + lists outer') := by
  have hnone : ∀ {outer : List Wrapper} {ts : List Token}, (outer, ts) = (outer', rest) →
      ∃ part, ts = part ++ rest ∧ lists outer ≤ lists outer' ∧
        ∀ depth, Stretch (depth + lists outer) part (depth + lists outer') := by
    intro outer ts h
    obtain ⟨rfl, rfl⟩ := Prod.mk.inj h
    exact ⟨[], rfl, Nat.le_refl _, fun depth => .nil _⟩
  have hcount : ∀ outer, lists (.list :: outer) = lists outer + 1 := fun _ => List.count_cons_self
  fun_induction wrappers outer ts with
  | case1 outer => exact hnone h
  | case2 outer t ts hbang ih =>
    obtain ⟨part, rfl, hle, hpart⟩ := ih h
    refine ⟨t :: part, rfl, hle, fun depth => ?_⟩
    exact (Stretch.flat (by rw [hbang]; decide) _).append (hpart depth)
  | case3 outer t ts hbang hbracket ih =>
    obtain ⟨part, rfl, hle, hpart⟩ := ih h
    rw [hcount] at hle hpart
    exact ⟨t :: part, rfl, Nat.le_of_succ_le hle, fun depth =>
      (Stretch.opening (.inl hbracket) _).append (hpart depth)⟩
  | case4 outer t _ _ _ => exact hnone h
  | case5 outer t _ _ htypes u us hbracket ih =>
    obtain ⟨part, rfl, hle, hpart⟩ := ih h
    rw [hcount] at hle hpart
    refine ⟨t :: u :: part, rfl, Nat.le_of_succ_le hle, fun depth => ?_⟩
    have htypes : Stretch (depth + lists outer) [t] (depth + lists outer) :=
      .flat (by rw [kind_of_isWord htypes]; decide) _
    exact htypes.append ((Stretch.opening (.inl hbracket) _).append (hpart depth))
  | case6 outer t _ _ _ u us _ => exact hnone h
  | case7 outer t ts _ _ _ => exact hnone h

theorem named_spec {ts rest : List Token} {level : Level} (h : named ts = some (level, rest)) :
    ∃ part, ts = part ++ rest ∧ part ≠ [] ∧ (∀ depth, Stretch depth part depth) ∧
      (Worded ts → Base level.base) := by
  have hconstant : ∀ {t : Token} {ts : List Token}, (if t.kind = .constant then
        some ((⟨Scalar.canonical t.text, 0, false⟩ : Level), ts) else none) = some (level, rest) →
      ts = rest ∧ t.kind = .constant ∧ level.base = Scalar.canonical t.text := by
    intro t ts h
    split at h
    · rename_i hk
      obtain ⟨rfl, rfl⟩ := Prod.mk.inj (Option.some.inj h)
      exact ⟨rfl, hk, rfl⟩
    · cases h
  have hpart : ∀ {t : Token}, t.kind = .constant → ∀ depth, Stretch depth [t] depth :=
    fun hk depth => .flat (by rw [hk]; decide) depth
  have hone : ∀ {t : Token} {ts : List Token}, ts = rest ∧ t.kind = .constant ∧
        level.base = Scalar.canonical t.text →
      ∃ part, t :: ts = part ++ rest ∧ part ≠ [] ∧ (∀ depth, Stretch depth part depth) ∧
        (Worded (t :: ts) → Base level.base) := by
    rintro t ts ⟨rfl, hk, hbase⟩
    refine ⟨[t], rfl, List.cons_ne_nil _ _, hpart hk, fun hw => ?_⟩
    rw [hbase]
    exact .constant (Scalar.constantPath_canonical ((hw t List.mem_cons_self).1 hk))
  unfold named at h
  simp only at h
  split at h
  · rename_i t u us
    split at h
    · rename_i htypes
      split at h
      · rename_i hdot
        cases us with
        | nil => cases h
        | cons c us =>
          obtain ⟨rfl, hk, hbase⟩ := hconstant h
          refine ⟨[t, u, c], rfl, List.cons_ne_nil _ _, fun depth => ?_, fun hw => ?_⟩
          · have ht : Stretch depth [t] depth := .flat (by rw [kind_of_isWord htypes]; decide) _
            have hu : Stretch depth [u] depth := .flat (by rw [hdot]; decide) _
            exact ht.append (hu.append (hpart hk depth))
          · rw [hbase]
            exact .constant (Scalar.constantPath_canonical ((hw c (by simp)).1 hk))
      · cases h
    · exact hone (hconstant h)
  · cases ts with
    | nil => cases h
    | cons t ts => exact hone (hconstant h)

theorem postfixed_base {l l' : Level} {method : Text} (h : postfixed l method = some l')
    (hm : Scan.Identifier method) (hb : Base l.base) : Base l'.base := by
  unfold postfixed at h
  split at h
  · obtain rfl := Option.some.inj h
    exact hb
  split at h
  · obtain rfl := Option.some.inj h
    exact hb
  split at h
  · obtain rfl := Option.some.inj h
    exact .method hb hm
  · cases h

theorem postfixes_spec {l l' : Level} {ts rest : List Token}
    (h : postfixes l ts = some (l', rest)) :
    ∃ part, ts = part ++ rest ∧ (∀ depth, Stretch depth part depth) ∧
      (Worded ts → Base l.base → Base l'.base) := by
  have hnone : ∀ {l : Level} {ts : List Token}, some (l, ts) = some (l', rest) →
      ∃ part, ts = part ++ rest ∧ (∀ depth, Stretch depth part depth) ∧
        (Worded ts → Base l.base → Base l'.base) := by
    intro l ts h
    obtain ⟨rfl, rfl⟩ := Prod.mk.inj (Option.some.inj h)
    exact ⟨[], rfl, fun depth => .nil depth, fun _ hb => hb⟩
  fun_induction postfixes l ts with
  | case1 l => exact hnone h
  | case2 l t _ => cases h
  | case3 l t hdot m ts hm ih =>
    obtain ⟨next, hnext, hrest⟩ := Option.bind_eq_some_iff.1 h
    obtain ⟨part, rfl, hpart, hbase⟩ := ih next hrest
    refine ⟨t :: m :: part, rfl, fun depth => ?_, fun hw hb => ?_⟩
    · have ht : Stretch depth [t] depth := .flat (by rw [hdot]; decide) _
      have hm : Stretch depth [m] depth := .flat (by rw [hm]; decide) _
      exact ht.append (hm.append (hpart depth))
    · have hname := (hw m (by simp)).2 hm
      exact hbase hw.tail.tail (postfixed_base hnext hname hb)
  | case4 l t _ m ts _ => cases h
  | case5 l t ts _ => exact hnone h

theorem closeWrappers_spec {l l' : Level} {outer : List Wrapper} {ts rest : List Token}
    (h : closeWrappers l outer ts = some (l', rest)) :
    ∃ part, ts = part ++ rest ∧ (∀ depth, Stretch (depth + lists outer) part depth) ∧
      (Worded ts → Base l.base → Base l'.base) := by
  induction outer generalizing l ts with
  | nil =>
    obtain ⟨rfl, rfl⟩ := Prod.mk.inj (Option.some.inj h)
    exact ⟨[], rfl, fun depth => .nil depth, fun _ hb => hb⟩
  | cons w outer ih =>
    cases w with
    | bang =>
      obtain ⟨part, hts, hpart, hbase⟩ := ih h
      exact ⟨part, hts, hpart, hbase⟩
    | list =>
      rw [closeWrappers.eq_def] at h
      simp only at h
      split at h
      · cases h
      rename_i t ts
      split at h
      · rename_i hclose
        obtain ⟨⟨next, ts'⟩, hpost, hrest⟩ := Option.bind_eq_some_iff.1 h
        obtain ⟨first, rfl, hfirst, hbase₁⟩ := postfixes_spec hpost
        obtain ⟨part, rfl, hpart, hbase₂⟩ := ih hrest
        have hcount : lists (.list :: outer) = lists outer + 1 := List.count_cons_self
        refine ⟨t :: (first ++ part), by simp, fun depth => ?_, fun hw hb => ?_⟩
        · rw [hcount]
          exact (Stretch.closing (.inl hclose) _).append ((hfirst _).append (hpart depth))
        · exact hbase₂ hw.tail.right (hbase₁ hw.tail hb)
      · cases h

theorem level_spec {ts rest : List Token} {l : Level} (h : level ts = some (l, rest)) :
    ∃ part, ts = part ++ rest ∧ part ≠ [] ∧ (∀ depth, Stretch depth part depth) ∧
      (Worded ts → Base l.base) := by
  unfold level at h
  split at h
  rename_i outer ts₁ hwrap
  obtain ⟨⟨base, ts₂⟩, hnamed, hrest⟩ := Option.bind_eq_some_iff.1 h
  obtain ⟨⟨base', ts₃⟩, hpost, hclose⟩ := Option.bind_eq_some_iff.1 hrest
  obtain ⟨a, rfl, -, ha⟩ := wrappers_spec hwrap
  obtain ⟨b, rfl, hne, hb, hbase₁⟩ := named_spec hnamed
  obtain ⟨c, rfl, hc, hbase₂⟩ := postfixes_spec hpost
  obtain ⟨d, rfl, hd, hbase₃⟩ := closeWrappers_spec hclose
  refine ⟨a ++ (b ++ (c ++ d)), by simp, by simp [hne], fun depth => ?_, fun hw => ?_⟩
  · have ha : Stretch depth a (depth + lists outer) := ha depth
    exact ha.append ((hb _).append ((hc _).append (hd depth)))
  · exact hbase₃ hw.right.right.right (hbase₂ hw.right.right (hbase₁ hw.right))

/-! ## The whole expression -/

theorem afterDeferral_spec {ts rest : List Token} (h : afterDeferral ts = some rest) :
    ∃ t, ts = t :: rest ∧ Stretch 0 [t] 0 := by
  unfold afterDeferral at h
  split at h
  · rename_i t ts
    split at h
    · rename_i harrow
      obtain rfl := Option.some.inj h
      exact ⟨t, rfl, .flat (by rw [harrow]; decide) _⟩
    split at h
    · rename_i hword
      obtain rfl := Option.some.inj h
      have hkind : t.kind = .identifier := by
        rcases Bool.or_eq_true_iff.1 (Bool.and_eq_true_iff.1 hword).1 with hw | hw <;>
          exact kind_of_isWord hw
      exact ⟨t, rfl, .flat (by rw [hkind]; decide) _⟩
    · cases h
  · cases h

theorem cons_of_head?_any {ts : List Token} {kind : TokenKind}
    (h : ts.head?.any (·.is kind) = true) : ∃ t, ts = t :: ts.tail ∧ t.kind = kind := by
  cases ts with
  | nil => cases h
  | cons t ts => exact ⟨t, rfl, beq_iff_eq.1 h⟩

/-- Tokens that are a type expression: what they are, and what its base is. -/
theorem ofTokens_spec {ts : List Token} {t : TypeExpression} (h : ofTokens ts = some t) :
    ts ≠ [] ∧ Stretch 0 ts 0 ∧ (Worded ts → Base t.base) := by
  unfold ofTokens at h
  extract_lets bang ts' finish at h
  have hfinish : ∀ {l deferred rest}, finish l deferred rest = some t → rest = [] ∧ t.base = l.base := by
    intro l deferred rest h
    simp only [finish] at h
    split at h
    · rename_i hnil
      obtain rfl := Option.some.inj h
      exact ⟨List.isEmpty_iff.1 hnil, rfl⟩
    · cases h
  obtain ⟨first, hts, hfirst⟩ : ∃ first, ts = first ++ ts' ∧ Stretch 0 first 0 := by
    simp only [ts']
    split
    · rename_i hbang
      obtain ⟨t, hts, hk⟩ := cons_of_head?_any hbang
      exact ⟨[t], hts, .flat (by rw [hk]; decide) _⟩
    · exact ⟨[], rfl, .nil 0⟩
  split at h
  · rename_i inside hdeferral
    obtain ⟨mark, hmark, hmarkStretch⟩ := afterDeferral_spec hdeferral
    split at h
    · rename_i hopen
      obtain ⟨opener, hinside, hopener⟩ := cons_of_head?_any hopen
      obtain ⟨⟨l, rest⟩, hlevel, h⟩ := Option.bind_eq_some_iff.1 h
      obtain ⟨part, hpart, hne, hstretch, hbase⟩ := level_spec hlevel
      simp only at h
      split at h
      · rename_i hclose
        obtain ⟨closer, hrest, hcloser⟩ := cons_of_head?_any hclose
        obtain ⟨hnil, hb⟩ := hfinish h
        have hall : ts = first ++ ([mark] ++ ([opener] ++ (part ++ [closer]))) := by
          rw [hts, hmark, hinside, hpart, hrest, hnil]
          rfl
        refine ⟨by simp [hall], ?_, fun hw => ?_⟩
        · rw [hall]
          exact hfirst.append (hmarkStretch.append ((Stretch.opening (.inr hopener) 0).append
            ((hstretch 1).append (.closing (.inr hcloser) 0))))
        · rw [hb]
          rw [hts, hmark, hinside] at hw
          exact hbase hw.right.tail.tail
      · cases h
    · cases h
  · obtain ⟨⟨l, rest⟩, hlevel, h⟩ := Option.bind_eq_some_iff.1 h
    obtain ⟨part, hpart, hne, hstretch, hbase⟩ := level_spec hlevel
    obtain ⟨hnil, hb⟩ := hfinish h
    have hall : ts = first ++ part := by rw [hts, hpart, hnil, List.append_nil]
    refine ⟨by simp [hall, hne], ?_, fun hw => ?_⟩
    · rw [hall]
      exact hfirst.append (hstretch 0)
    · rw [hb]
      rw [hts] at hw
      exact hbase hw.right

end TypeExpression

end SchemaLift
