import SchemaLift.Proofs.Token.Quoted

/-!
# Well-nested strings

What stands in a double-quoted string, in interpolated code and in single quotes is given as a grammar
over the bytes of the text (`Content`). `Quoted.closing` finds the end of a string or an interpolation
exactly if such a content stands in front of it (`stringClose_iff_and_interpolationClose_iff`).

What a stack of frames still demands of the text is written down as `Closes`: for each frame a content
with the byte that ends it. Each character that `closing` reads changes the stack as it changes the
demand, so the recursion of `closing` carries the equivalence.
-/

namespace SchemaLift.Quoted

/-! ## Characters and their bytes -/

/-- The bytes of a text. -/
def utf8 (s : Text) : List UInt8 := s.flatMap String.utf8EncodeChar

theorem utf8_cons (c : Char) (s : Text) : utf8 (c :: s) = String.utf8EncodeChar c ++ utf8 s := rfl

theorem utf8_append (s t : Text) : utf8 (s ++ t) = utf8 s ++ utf8 t := List.flatMap_append

theorem length_utf8 (s : Text) : (utf8 s).length = Text.utf8Size s := by
  induction s with
  | nil => rfl
  | cons c s ih => rw [utf8_cons, List.length_append, String.length_utf8EncodeChar, ih, Text.utf8Size]

theorem utf8EncodeChar_ne_nil (c : Char) : String.utf8EncodeChar c ≠ [] := by
  rw [← List.length_pos_iff, String.length_utf8EncodeChar]
  exact c.utf8Size_pos

/-- The characters with one byte. -/
def Ascii (c : Char) : Prop := c.val ≤ 127

instance : DecidablePred Ascii := fun c => inferInstanceAs (Decidable (c.val ≤ 127))

theorem utf8EncodeChar_of_ascii {c : Char} (h : Ascii c) : String.utf8EncodeChar c = [c.toUInt8] :=
  String.utf8EncodeChar_eq_singleton (Char.utf8Size_eq_one_iff.2 h)

theorem toUInt8_inj_of_ascii {c d : Char} (hc : Ascii c) (hd : Ascii d)
    (h : c.toUInt8 = d.toUInt8) : c = d := by
  have hnat : c.val.toNat % 256 = d.val.toNat % 256 := congrArg UInt8.toNat h
  have hc : c.val.toNat ≤ 127 := hc
  have hd : d.val.toNat ≤ 127 := hd
  exact Char.ext (UInt32.toNat_inj.1 (by omega))

theorem toNat_toUInt8_of_ascii {c : Char} (h : Ascii c) : c.toUInt8.toNat ≤ 127 := by
  have hc : c.val.toNat ≤ 127 := h
  change c.val.toNat % 256 ≤ 127
  omega

/-- No byte of another character reads as one of the first 128. -/
theorem lt_of_mem_utf8EncodeChar {c : Char} (h : ¬ Ascii c) {b : UInt8}
    (hb : b ∈ String.utf8EncodeChar c) : 127 < b.toNat := by
  have hc : ¬ c.val.toNat ≤ 127 := h
  simp only [String.utf8EncodeChar, if_neg hc] at hb
  split_ifs at hb <;> simp only [List.mem_cons, List.not_mem_nil, or_false] at hb <;>
    rcases hb with rfl | rfl | rfl | rfl <;> simp only [UInt8.toNat_ofNat'] <;> omega

theorem head?_of_head?_utf8 {s : Text} {c : Char} (hc : Ascii c)
    (h : (utf8 s).head? = some c.toUInt8) : s.head? = some c := by
  cases s with
  | nil => cases h
  | cons d s =>
    rw [utf8_cons] at h
    by_cases hd : Ascii d
    · rw [utf8EncodeChar_of_ascii hd] at h
      exact congrArg some (toUInt8_inj_of_ascii hd hc (Option.some.inj h))
    · obtain ⟨b, bs, heq⟩ := List.exists_cons_of_ne_nil (utf8EncodeChar_ne_nil d)
      rw [heq] at h
      obtain rfl : b = c.toUInt8 := Option.some.inj h
      have hlt := lt_of_mem_utf8EncodeChar hd (heq ▸ List.mem_cons_self)
      have hle := toNat_toUInt8_of_ascii hc
      omega

/-! ## The grammar -/

/-- The three kinds of text. -/
inductive Level where
  /-- Inside double quotes. -/
  | string
  /-- Inside an interpolation, or inside braces in one. -/
  | code
  /-- Inside single quotes. -/
  | quote
  deriving DecidableEq, Repr

namespace Level

/-- What opens a text of the level in code. -/
def opener : Level → Char
  | .string => '"'
  | .code => '{'
  | .quote => '\''

def closer : Level → Char
  | .string => '"'
  | .code => '}'
  | .quote => '\''

/-- What never stands for itself. -/
def reserved : Level → List Char
  | .string => ['"', '\\']
  | .code => ['"', '\'', '{', '}']
  | .quote => ['\'', '\\']

theorem closer_mem_reserved (level : Level) : level.closer ∈ level.reserved := by
  cases level <;> decide

theorem ascii_of_mem_reserved {level : Level} {c : Char} (h : c ∈ level.reserved) : Ascii c := by
  have hall : level.reserved.all (fun c => decide (Ascii c)) = true := by cases level <;> rfl
  exact of_decide_eq_true (List.all_eq_true.1 hall c h)

theorem opener_mem_reserved (inner : Level) : inner.opener ∈ code.reserved := by
  cases inner <;> decide

theorem backslash_mem_reserved {level : Level} (h : level ≠ .code) : '\\' ∈ level.reserved := by
  cases level with
  | string | quote => decide
  | code => exact absurd rfl h

theorem closer_ne_backslash (level : Level) : level.closer.toUInt8 ≠ '\\'.toUInt8 := by
  cases level <;> decide

theorem closer_ne_hash (level : Level) : level.closer.toUInt8 ≠ '#'.toUInt8 := by
  cases level <;> decide

theorem opener_ne_closer (inner : Level) : inner.opener.toUInt8 ≠ code.closer.toUInt8 := by
  cases inner <;> decide

theorem opener_inj {inner inner' : Level} (h : inner.opener.toUInt8 = inner'.opener.toUInt8) :
    inner = inner' := by
  revert h
  cases inner <;> cases inner' <;> decide

end Level

/-- The contents of each level, a sequence of units: an escape, an interpolation, in code a string,
quoted text or braces, and any other byte. -/
inductive Content : Level → List UInt8 → Prop
  | nil (level : Level) : Content level []
  /-- A backslash takes the next byte with it, other than in code. -/
  | escape {level : Level} (h : level ≠ .code) (b : UInt8) {u : List UInt8} (hu : Content level u) :
      Content level ('\\'.toUInt8 :: b :: u)
  | interpolation {v u : List UInt8} (hv : Content .code v) (hu : Content .string u) :
      Content .string ('#'.toUInt8 :: '{'.toUInt8 :: (v ++ '}'.toUInt8 :: u))
  | group (inner : Level) {v u : List UInt8} (hv : Content inner v) (hu : Content .code u) :
      Content .code (inner.opener.toUInt8 :: (v ++ inner.closer.toUInt8 :: u))
  /-- Any other byte, in a string none that starts an interpolation. -/
  | plain {level : Level} {b : UInt8} {u : List UInt8} (hb : b ∉ level.reserved.map Char.toUInt8)
      (hstart : level = .string → b = '#'.toUInt8 → u.head? ≠ some '{'.toUInt8)
      (hu : Content level u) : Content level (b :: u)

/-- The first unit of a content. -/
theorem Content.cons_cases {level : Level} {b : UInt8} {u : List UInt8} (h : Content level (b :: u)) :
    (level ≠ .code ∧ b = '\\'.toUInt8 ∧ ∃ d w, u = d :: w ∧ Content level w) ∨
    (level = .string ∧ b = '#'.toUInt8 ∧ ∃ v w, u = '{'.toUInt8 :: (v ++ '}'.toUInt8 :: w) ∧
      Content .code v ∧ Content .string w) ∨
    (level = .code ∧ ∃ (inner : Level) (v w : List UInt8), b = inner.opener.toUInt8 ∧
      u = v ++ inner.closer.toUInt8 :: w ∧ Content inner v ∧ Content .code w) ∨
    (b ∉ level.reserved.map Char.toUInt8 ∧
      (level = .string → b = '#'.toUInt8 → u.head? ≠ some '{'.toUInt8) ∧ Content level u) := by
  cases h with
  | escape h d hu => exact .inl ⟨h, rfl, d, _, rfl, hu⟩
  | interpolation hv hu => exact .inr (.inl ⟨rfl, rfl, _, _, rfl, hv, hu⟩)
  | group inner hv hu => exact .inr (.inr (.inl ⟨rfl, inner, _, _, rfl, rfl, hv, hu⟩))
  | plain hb hstart hu => exact .inr (.inr (.inr ⟨hb, hstart, hu⟩))

/-! ## What a stack demands -/

/-- What the open levels, the innermost first, demand of a text in front of the rest. -/
def Closes : List Level → List UInt8 → List UInt8 → Prop
  | [], s, rest => s = rest
  | level :: levels, s, rest => ∃ u v, s = u ++ level.closer.toUInt8 :: v ∧ Content level u ∧
      Closes levels v rest

section Closes
variable {level : Level} {levels : List Level} {rest : List UInt8}

theorem not_closes_nil : ¬ Closes (level :: levels) [] rest := by
  rintro ⟨u, v, heq, -, -⟩
  exact List.append_ne_nil_of_right_ne_nil u (List.cons_ne_nil _ v) heq.symm

/-- A first byte that does not end the level is the first of its content. -/
theorem closes_cons {b : UInt8} {s : List UInt8} (h : b ≠ level.closer.toUInt8) :
    Closes (level :: levels) (b :: s) rest ↔ ∃ u v, s = u ++ level.closer.toUInt8 :: v ∧
      Content level (b :: u) ∧ Closes levels v rest := by
  constructor
  · rintro ⟨u, v, heq, hu, hv⟩
    cases u with
    | nil => exact absurd (List.cons.inj heq).1 h
    | cons d u =>
      obtain ⟨rfl, rfl⟩ := List.cons.inj heq
      exact ⟨u, v, rfl, hu, hv⟩
  · rintro ⟨u, v, rfl, hu, hv⟩
    exact ⟨b :: u, v, rfl, hu, hv⟩

/-- A last byte has to end the level; a backslash there escapes nothing. -/
theorem not_closes_singleton {b : UInt8} (h : b ≠ level.closer.toUInt8) :
    ¬ Closes (level :: levels) [b] rest := by
  rw [closes_cons h]
  rintro ⟨u, v, heq, -, -⟩
  exact List.append_ne_nil_of_right_ne_nil u (List.cons_ne_nil _ v) heq.symm

theorem closes_closer (level : Level) {s : List UInt8} :
    Closes (level :: levels) (level.closer.toUInt8 :: s) rest ↔ Closes levels s rest := by
  constructor
  · rintro ⟨u, v, heq, hu, hv⟩
    cases u with
    | nil =>
      obtain ⟨-, rfl⟩ := List.cons.inj heq
      exact hv
    | cons b u =>
      obtain ⟨rfl, -⟩ := List.cons.inj heq
      rcases hu.cons_cases with ⟨-, hb, -⟩ | ⟨rfl, hb, -⟩ | ⟨rfl, inner, v, w, hb, -⟩ | ⟨hb, -⟩
      · exact absurd hb level.closer_ne_backslash
      · exact absurd hb Level.string.closer_ne_hash
      · exact absurd hb.symm inner.opener_ne_closer
      · exact absurd (List.mem_map_of_mem level.closer_mem_reserved) hb
  · exact fun h => ⟨[], s, rfl, .nil level, h⟩

theorem closes_escape (h : level ≠ .code) {b : UInt8} {s : List UInt8} :
    Closes (level :: levels) ('\\'.toUInt8 :: b :: s) rest ↔ Closes (level :: levels) s rest := by
  rw [closes_cons level.closer_ne_backslash.symm]
  constructor
  · rintro ⟨u, v, heq, hu, hv⟩
    rcases hu.cons_cases with ⟨-, -, d, w, rfl, hw⟩ | ⟨-, hb, -⟩ | ⟨hlevel, -⟩ | ⟨hb, -⟩
    · exact ⟨w, v, (List.cons.inj heq).2, hw, hv⟩
    · exact absurd hb (by decide)
    · exact absurd hlevel h
    · exact absurd (List.mem_map_of_mem (Level.backslash_mem_reserved h)) hb
  · rintro ⟨u, v, rfl, hu, hv⟩
    exact ⟨b :: u, v, rfl, .escape h b hu, hv⟩

theorem closes_interpolation {s : List UInt8} :
    Closes (.string :: levels) ('#'.toUInt8 :: '{'.toUInt8 :: s) rest ↔
      Closes (.code :: .string :: levels) s rest := by
  rw [closes_cons Level.string.closer_ne_hash.symm]
  constructor
  · rintro ⟨u, v, heq, hu, hv⟩
    rcases hu.cons_cases with ⟨-, hb, -⟩ | ⟨-, -, w, u, rfl, hw, hu⟩ | ⟨hlevel, -⟩ | ⟨-, hstart, -⟩
    · exact absurd hb (by decide)
    · refine ⟨w, u ++ Level.string.closer.toUInt8 :: v, ?_, hw, u, v, rfl, hu, hv⟩
      rw [(List.cons.inj heq).2]
      exact List.append_assoc w ('}'.toUInt8 :: u) _
    · exact absurd hlevel (by decide)
    · cases u with
      | nil => exact absurd (List.cons.inj heq).1 (by decide)
      | cons d u =>
        obtain ⟨rfl, -⟩ := List.cons.inj heq
        exact absurd rfl (hstart rfl rfl)
  · rintro ⟨w, t, rfl, hw, u, v, rfl, hu, hv⟩
    refine ⟨'{'.toUInt8 :: (w ++ '}'.toUInt8 :: u), v, ?_, .interpolation hw hu, hv⟩
    rw [List.cons_append, List.append_assoc]
    rfl

/-- A quote or a brace opens a text inside code. -/
theorem closes_opener (inner : Level) {s : List UInt8} :
    Closes (.code :: levels) (inner.opener.toUInt8 :: s) rest ↔
      Closes (inner :: .code :: levels) s rest := by
  rw [closes_cons inner.opener_ne_closer]
  constructor
  · rintro ⟨u, v, rfl, hu, hv⟩
    rcases hu.cons_cases with ⟨hlevel, -⟩ | ⟨hlevel, -⟩ | ⟨-, inner', w, u, hb, rfl, hw, hu'⟩ |
      ⟨hb, -⟩
    · exact absurd rfl hlevel
    · exact absurd hlevel (by decide)
    · obtain rfl := Level.opener_inj hb
      refine ⟨w, u ++ Level.code.closer.toUInt8 :: v, ?_, hw, u, v, rfl, hu', hv⟩
      rw [List.append_assoc]
      rfl
    · exact absurd (List.mem_map_of_mem inner.opener_mem_reserved) hb
  · rintro ⟨w, t, rfl, hw, u, v, rfl, hu, hv⟩
    refine ⟨w ++ inner.closer.toUInt8 :: u, v, ?_, .group inner hw hu, hv⟩
    rw [List.append_assoc]
    rfl

theorem closes_plain {b : UInt8} {s : List UInt8} (hb : b ∉ level.reserved.map Char.toUInt8)
    (hstart : level = .string → b = '#'.toUInt8 → s.head? ≠ some '{'.toUInt8) :
    Closes (level :: levels) (b :: s) rest ↔ Closes (level :: levels) s rest := by
  have hcloser : b ≠ level.closer.toUInt8 := fun heq =>
    hb (heq ▸ List.mem_map_of_mem level.closer_mem_reserved)
  rw [closes_cons hcloser]
  constructor
  · rintro ⟨u, v, rfl, hu, hv⟩
    rcases hu.cons_cases with ⟨h, rfl, -⟩ | ⟨rfl, rfl, w, u, rfl, -⟩ | ⟨rfl, inner, w, u, rfl, -⟩ |
      ⟨-, -, hu⟩
    · exact absurd (List.mem_map_of_mem (Level.backslash_mem_reserved h)) hb
    · exact absurd rfl (hstart rfl rfl)
    · exact absurd (List.mem_map_of_mem inner.opener_mem_reserved) hb
    · exact ⟨u, v, rfl, hu, hv⟩
  · rintro ⟨u, v, rfl, hu, hv⟩
    refine ⟨u, v, rfl, .plain hb (fun hlevel heq hhead => ?_) hu, hv⟩
    obtain ⟨u, rfl⟩ := List.head?_eq_some_iff.1 hhead
    exact hstart hlevel heq rfl

/-- A character beyond the first 128 is a run of plain bytes. -/
theorem closes_high {bs s : List UInt8} (h : ∀ b ∈ bs, 127 < b.toNat) :
    Closes (level :: levels) (bs ++ s) rest ↔ Closes (level :: levels) s rest := by
  induction bs with
  | nil => rfl
  | cons b bs ih =>
    have hb : 127 < b.toNat := h b List.mem_cons_self
    have hne : ∀ {c : Char}, Ascii c → b ≠ c.toUInt8 := by
      rintro c hc rfl
      exact absurd (toNat_toUInt8_of_ascii hc) (by omega)
    rw [List.cons_append, closes_plain, ih fun d hd => h d (List.mem_cons_of_mem b hd)]
    · intro hmem
      obtain ⟨c, hc, rfl⟩ := List.mem_map.1 hmem
      exact hne (Level.ascii_of_mem_reserved hc) rfl
    · exact fun _ heq => absurd heq (hne (by decide))

theorem closes_char {c : Char} {s : List UInt8} (hc : c ∉ level.reserved)
    (hstart : level = .string → c = '#' → s.head? ≠ some '{'.toUInt8) :
    Closes (level :: levels) (String.utf8EncodeChar c ++ s) rest ↔
      Closes (level :: levels) s rest := by
  by_cases h : Ascii c
  · rw [utf8EncodeChar_of_ascii h]
    refine closes_plain (fun hmem => ?_) fun hlevel heq =>
      hstart hlevel (toUInt8_inj_of_ascii h (by decide) heq)
    obtain ⟨d, hd, heq⟩ := List.mem_map.1 hmem
    exact hc (toUInt8_inj_of_ascii (Level.ascii_of_mem_reserved hd) h heq ▸ hd)
  · exact closes_high fun b => lt_of_mem_utf8EncodeChar h

theorem closes_escapedChar (h : level ≠ .code) (c : Char) {s : List UInt8} :
    Closes (level :: levels) ('\\'.toUInt8 :: (String.utf8EncodeChar c ++ s)) rest ↔
      Closes (level :: levels) s rest := by
  by_cases hc : Ascii c
  · rw [utf8EncodeChar_of_ascii hc]
    exact closes_escape h
  · obtain ⟨b, bs, heq⟩ : ∃ b bs, String.utf8EncodeChar c = b :: bs :=
      List.exists_cons_of_ne_nil (utf8EncodeChar_ne_nil c)
    have hhigh : ∀ d ∈ bs, 127 < d.toNat := fun d hd =>
      lt_of_mem_utf8EncodeChar hc (heq ▸ List.mem_cons_of_mem b hd)
    rw [heq, List.cons_append, closes_escape h, closes_high hhigh]

end Closes

/-! ## The scanner -/

def Frame.levels : Frame → List Level
  | .string => [.string]
  | .code depth => List.replicate (depth + 1) .code
  | .quote => [.quote]

/-- The levels that a stack of frames has open. -/
def levels (frames : List Frame) : List Level := frames.flatMap Frame.levels

/-- What follows the end, in a text with `n` more characters in front. -/
theorem exists_map_add_iff {o : Option Nat} {n : Nat} {s t : Text} {rest : List UInt8}
    (h : ∀ k, s.drop (k + n + 1) = t.drop (k + 1)) :
    (∃ k, o.map (· + n) = some k ∧ rest = utf8 (s.drop (k + 1))) ↔
      ∃ k, o = some k ∧ rest = utf8 (t.drop (k + 1)) := by
  simp [Option.map_eq_some_iff, h]

/-- The character in front closes the last frame. -/
theorem exists_zero_iff {c : Char} {s : Text} {rest : List UInt8} :
    (∃ k, some 0 = some k ∧ rest = utf8 ((c :: s).drop (k + 1))) ↔ Closes [] (utf8 s) rest := by
  constructor
  · rintro ⟨_, ⟨⟩, rfl⟩
    rfl
  · rintro ⟨⟩
    exact ⟨0, rfl, rfl⟩

theorem closes_iff_of_open {frames : List Frame} (h : Open frames) (s : Text) (rest : List UInt8) :
    Closes (levels frames) (utf8 s) rest ↔
      ∃ k, closing frames s = some k ∧ rest = utf8 (s.drop (k + 1)) := by
  fun_induction closing frames s with
  | case1 out c cs ih | case11 out c cs ih =>
    rw [exists_map_add_iff (fun _ => rfl), ← ih h]
    exact closes_escapedChar (by decide) c
  | case2 out cs ih =>
    rw [exists_map_add_iff (fun _ => rfl), ← ih (.code 0 h)]
    exact closes_interpolation
  | case3 cs => exact (closes_closer .string).trans exists_zero_iff.symm
  | case5 cs => exact (closes_closer .code).trans exists_zero_iff.symm
  | case4 out cs hout ih =>
    rw [exists_map_add_iff (fun _ => rfl), ← ih (h.out.resolve_left fun heq => hout heq)]
    exact closes_closer .string
  | case6 out cs hout ih =>
    rw [exists_map_add_iff (fun _ => rfl), ← ih (h.out.resolve_left fun heq => hout heq)]
    exact closes_closer .code
  | case7 depth out cs ih =>
    rw [exists_map_add_iff (fun _ => rfl), ← ih (h.withDepth depth)]
    exact closes_closer .code
  | case8 depth out cs ih =>
    rw [exists_map_add_iff (fun _ => rfl), ← ih (h.withDepth (depth + 1))]
    exact closes_opener .code
  | case9 depth out cs ih =>
    rw [exists_map_add_iff (fun _ => rfl), ← ih (.string h)]
    exact closes_opener .string
  | case10 depth out cs ih =>
    rw [exists_map_add_iff (fun _ => rfl), ← ih (.quote h)]
    exact closes_opener .quote
  | case12 out cs ih =>
    rw [exists_map_add_iff (fun _ => rfl), ← ih h.quoteOut]
    exact closes_closer .quote
  | case14 frames =>
    cases frames with
    | nil => cases h
    | cons frame out =>
      cases frame with
      | string | code depth | quote =>
        refine iff_of_false not_closes_nil ?_
        rintro ⟨k, hk, -⟩
        cases hk
  | case13 frames c cs hescape hhash _ hquote _ hzero hclose hopen hstring hplain hescape' hplain' ih =>
    -- any other character: a backslash at the end of the text, or a plain one
    rw [exists_map_add_iff (fun _ => rfl), ← ih h]
    cases ordinary_of_no_case h hescape hhash hquote hzero hclose hopen hstring hplain hescape'
        hplain' with
    | lastEscape hframe =>
      rcases hframe with rfl | rfl
      · exact iff_of_false (not_closes_singleton (by decide)) not_closes_nil
      · exact iff_of_false (not_closes_singleton (by decide)) not_closes_nil
    | string hb hhead hc =>
      exact closes_char (by simp [Level.reserved, hc, hb]) fun _ hh hbyte =>
        hhead hh (head?_of_head?_utf8 (by decide) hbyte)
    | code hc ho hs hp =>
      exact closes_char (by simp [Level.reserved, hc, ho, hs, hp])
        fun hlevel => absurd hlevel (by decide)
    | quote hb hp =>
      exact closes_char (by simp [Level.reserved, hp, hb]) fun hlevel => absurd hlevel (by decide)

/-- The character that closes the last frame has one byte. -/
theorem length_utf8_of_closing {frames : List Frame} (h : Open frames) {s : Text} {k : Nat}
    (hk : closing frames s = some k) :
    (utf8 s).length = Text.utf8Size (s.take k) + 1 + (utf8 (s.drop (k + 1))).length := by
  rw [Scanner.closing_eq h] at hk
  obtain ⟨u, c, v, rfl, rfl, hu, hc⟩ := Scanner.exists_of_closeFrom h.ne_nil hk
  have hascii : Ascii c := by
    rcases Scanner.step_closes hu hc with rfl | rfl | rfl <;> decide
  have hsize : (String.utf8EncodeChar c).length = 1 := by rw [utf8EncodeChar_of_ascii hascii]; rfl
  rw [utf8_append, utf8_cons, List.length_append, List.length_append, hsize, length_utf8,
    List.take_left, ← Nat.add_assoc, ← List.drop_drop, List.drop_left, List.drop_one, List.tail_cons]

/-- The end of the one open frame is where a content of its level is followed by what ends it. -/
theorem closing_singleton_iff {frame : Frame} {level : Level} (h : Open [frame])
    (hlevel : levels [frame] = [level]) (s : Text) (n : Nat) :
    ((closing [frame] s).map fun k => Text.utf8Size (s.take k)) = some n ↔
      Content level ((utf8 s).take n) ∧ (utf8 s)[n]? = some level.closer.toUInt8 := by
  have hiff (rest : List UInt8) : Closes [level] (utf8 s) rest ↔
      ∃ k, closing [frame] s = some k ∧ rest = utf8 (s.drop (k + 1)) :=
    hlevel ▸ closes_iff_of_open h s rest
  rw [Option.map_eq_some_iff]
  constructor
  · rintro ⟨k, hk, rfl⟩
    obtain ⟨u, v, heq, hu, rfl⟩ := (hiff _).2 ⟨k, hk, rfl⟩
    have hlength : u.length = Text.utf8Size (s.take k) := by
      have hsum := length_utf8_of_closing h hk
      rw [heq, List.length_append, List.length_cons] at hsum
      omega
    rw [heq, ← hlength, List.take_left, List.getElem?_append_right (Nat.le_refl _), Nat.sub_self]
    exact ⟨hu, rfl⟩
  · rintro ⟨hu, hget⟩
    obtain ⟨hn, hget⟩ := List.getElem?_eq_some_iff.1 hget
    have heq : utf8 s = (utf8 s).take n ++ level.closer.toUInt8 :: (utf8 s).drop (n + 1) := by
      rw [← hget, ← List.drop_eq_getElem_cons hn, List.take_append_drop]
    obtain ⟨k, hk, hrest⟩ := (hiff _).1 ⟨_, _, heq, hu, rfl⟩
    refine ⟨k, hk, ?_⟩
    have hsum := length_utf8_of_closing h hk
    rw [← hrest, List.length_drop] at hsum
    omega

/-- A string ends at byte `n` exactly if what is in front is the content of a string and a double
quote follows, and an interpolation exactly if it is code and a closing brace follows. -/
theorem stringClose_iff_and_interpolationClose_iff (s : Text) (n : Nat) :
    (((stringClose s).map fun k => Text.utf8Size (s.take k)) = some n ↔
      Content .string ((utf8 s).take n) ∧ (utf8 s)[n]? = some '"'.toUInt8) ∧
    (((interpolationClose s).map fun k => Text.utf8Size (s.take k)) = some n ↔
      Content .code ((utf8 s).take n) ∧ (utf8 s)[n]? = some '}'.toUInt8) :=
  ⟨closing_singleton_iff .outerString rfl s n, closing_singleton_iff (.outerCode 0) rfl s n⟩

end SchemaLift.Quoted
