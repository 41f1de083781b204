import SchemaLift.Proofs.Token.Scan

/-!
# The scanner of quoted text, character by character

`Quoted.closing` looks two characters ahead. `Scanner` reads one character at a time and remembers what
a backslash or a hash sign before it means; a scanner without frames has passed the end. The two agree
(`closing_eq`), so what `closing` finds depends on the text up to there only, and a text may be exchanged
for another that leaves the scanner in the same state.
-/

namespace SchemaLift.Quoted

/-- The stacks of frames that come up: strings and quotes stand in code, and code in strings. -/
inductive Open : List Frame → Prop
  | outerString : Open [.string]
  | outerCode (depth : Nat) : Open [.code depth]
  | string {depth : Nat} {out : List Frame} (h : Open (.code depth :: out)) :
      Open (.string :: .code depth :: out)
  | quote {depth : Nat} {out : List Frame} (h : Open (.code depth :: out)) :
      Open (.quote :: .code depth :: out)
  | code (depth : Nat) {out : List Frame} (h : Open (.string :: out)) :
      Open (.code depth :: .string :: out)

namespace Open

theorem ne_nil {frames : List Frame} (h : Open frames) : frames ≠ [] := by
  cases h <;> exact List.cons_ne_nil _ _

theorem out {frame : Frame} {out : List Frame} (h : Open (frame :: out)) : out = [] ∨ Open out := by
  cases h with
  | outerString | outerCode => exact .inl rfl
  | string h | quote h | code _ h => exact .inr h

theorem withDepth {depth : Nat} {out : List Frame} (h : Open (.code depth :: out)) (depth' : Nat) :
    Open (.code depth' :: out) := by
  cases h with
  | outerCode => exact .outerCode depth'
  | code _ h => exact .code depth' h

theorem quoteOut {out : List Frame} (h : Open (.quote :: out)) : Open out := by
  cases h with
  | quote h => exact h

end Open

/-- A character that changes no frame, in front of a text. -/
inductive Ordinary : List Frame → Char → Text → Prop
  /-- A backslash with nothing to take along. -/
  | lastEscape {frame : Frame} {out : List Frame} (hframe : frame = .string ∨ frame = .quote) :
      Ordinary (frame :: out) '\\' []
  | string {out : List Frame} {c : Char} {cs : Text} (hescape : c ≠ '\\')
      (hhash : c = '#' → cs.head? ≠ some '{') (hquote : c ≠ '"') : Ordinary (.string :: out) c cs
  | code {depth : Nat} {out : List Frame} {c : Char} {cs : Text} (hclose : c ≠ '}') (hopen : c ≠ '{')
      (hstring : c ≠ '"') (hquote : c ≠ '\'') : Ordinary (.code depth :: out) c cs
  | quote {out : List Frame} {c : Char} {cs : Text} (hescape : c ≠ '\\') (hquote : c ≠ '\'') :
      Ordinary (.quote :: out) c cs

/-- A character is ordinary if `closing` has no case for it. -/
theorem ordinary_of_no_case {frames : List Frame} (h : Open frames) {c : Char} {cs : Text}
    (hescape : ∀ out d ds, frames = .string :: out → c = '\\' → cs = d :: ds → False)
    (hhash : ∀ out ds, frames = .string :: out → c = '#' → cs = '{' :: ds → False)
    (hquote : ∀ out, frames = .string :: out → c = '"' → False)
    (hzero : ∀ out, frames = .code 0 :: out → c = '}' → False)
    (hclose : ∀ depth out, frames = .code (depth + 1) :: out → c = '}' → False)
    (hopen : ∀ depth out, frames = .code depth :: out → c = '{' → False)
    (hstring : ∀ depth out, frames = .code depth :: out → c = '"' → False)
    (hplain : ∀ depth out, frames = .code depth :: out → c = '\'' → False)
    (hescape' : ∀ out d ds, frames = .quote :: out → c = '\\' → cs = d :: ds → False)
    (hplain' : ∀ out, frames = .quote :: out → c = '\'' → False) : Ordinary frames c cs := by
  cases frames with
  | nil => cases h
  | cons frame out =>
    cases frame with
    | string =>
      by_cases hb : c = '\\'
      · subst hb
        cases cs with
        | nil => exact .lastEscape (.inl rfl)
        | cons d ds => exact (hescape out d ds rfl rfl rfl).elim
      · refine .string hb (fun hh hhead => ?_) (hquote out rfl)
        obtain ⟨ds, rfl⟩ := List.head?_eq_some_iff.1 hhead
        exact hhash out ds rfl hh rfl
    | code depth =>
      refine .code (fun hc => ?_) (hopen depth out rfl) (hstring depth out rfl) (hplain depth out rfl)
      cases depth with
      | zero => exact hzero out rfl hc
      | succ depth => exact hclose depth out rfl hc
    | quote =>
      by_cases hb : c = '\\'
      · subst hb
        cases cs with
        | nil => exact .lastEscape (.inr rfl)
        | cons d ds => exact (hescape' out d ds rfl rfl rfl).elim
      · exact .quote hb (hplain' out rfl)

/-- What the last character of a string or a quote means for the next one. -/
inductive Mode where
  | plain
  /-- It was a backslash, which takes the next character with it. -/
  | escaped
  /-- It was a hash sign, and a brace would start an interpolation. -/
  | hash
  deriving DecidableEq, Repr

structure Scanner where
  frames : List Frame
  mode : Mode
  deriving DecidableEq, Repr

namespace Scanner

def step : Scanner → Char → Scanner
  | ⟨.string :: out, mode⟩, c =>
    if mode = .escaped then ⟨.string :: out, .plain⟩
    else if c = '\\' then ⟨.string :: out, .escaped⟩
    else if c = '#' then ⟨.string :: out, .hash⟩
    else if c = '{' ∧ mode = .hash then ⟨.code 0 :: .string :: out, .plain⟩
    else if c = '"' then ⟨out, .plain⟩
    else ⟨.string :: out, .plain⟩
  | ⟨.code depth :: out, _⟩, c =>
    if c = '"' then ⟨.string :: .code depth :: out, .plain⟩
    else if c = '\'' then ⟨.quote :: .code depth :: out, .plain⟩
    else if c = '{' then ⟨.code (depth + 1) :: out, .plain⟩
    else if c = '}' then
      match depth with
      | 0 => ⟨out, .plain⟩
      | depth + 1 => ⟨.code depth :: out, .plain⟩
    else ⟨.code depth :: out, .plain⟩
  | ⟨.quote :: out, mode⟩, c =>
    if mode = .escaped then ⟨.quote :: out, .plain⟩
    else if c = '\\' then ⟨.quote :: out, .escaped⟩
    else if c = '\'' then ⟨out, .plain⟩
    else ⟨.quote :: out, .plain⟩
  | ⟨[], _⟩, _ => ⟨[], .plain⟩

def run (σ : Scanner) (s : Text) : Scanner := s.foldl step σ

/-- The number of characters before the one that closes the last frame. -/
def closeFrom (σ : Scanner) : Text → Option Nat
  | [] => none
  | c :: cs =>
    if (σ.step c).frames = [] then some 0 else ((σ.step c).closeFrom cs).map (· + 1)

theorem closeFrom_cons (σ : Scanner) (c : Char) (cs : Text) : σ.closeFrom (c :: cs) =
    if (σ.step c).frames = [] then some 0 else ((σ.step c).closeFrom cs).map (· + 1) := rfl

/-! ## Agreement with `closing` -/

/-- A hash sign that no brace follows is like any other character. -/
theorem closeFrom_hash {out : List Frame} {cs : Text} (h : cs.head? ≠ some '{') :
    closeFrom ⟨.string :: out, .hash⟩ cs = closeFrom ⟨.string :: out, .plain⟩ cs := by
  cases cs with
  | nil => rfl
  | cons c cs =>
    have hc : c ≠ '{' := fun heq => h (congrArg some heq)
    have hstep : step ⟨.string :: out, .hash⟩ c = step ⟨.string :: out, .plain⟩ c := by
      simp [step, hc]
    rw [closeFrom_cons, closeFrom_cons, hstep]

/-- A character that changes no frame, in front of a text that reads the same after it. -/
theorem closing_cons_of_step {frames : List Frame} {c : Char} {cs : Text}
    (ih : Open frames → closing frames cs = closeFrom ⟨frames, .plain⟩ cs) (h : Open frames)
    (hframes : (step ⟨frames, .plain⟩ c).frames = frames)
    (hrest : (step ⟨frames, .plain⟩ c).closeFrom cs = closeFrom ⟨frames, .plain⟩ cs) :
    (closing frames cs).map (· + 1) = closeFrom ⟨frames, .plain⟩ (c :: cs) := by
  rw [closeFrom_cons, hframes, if_neg h.ne_nil, hrest, ih h]

theorem closing_eq {frames : List Frame} (h : Open frames) (s : Text) :
    closing frames s = closeFrom ⟨frames, .plain⟩ s := by
  fun_induction closing frames s with
  | case1 out c cs ih | case11 out c cs ih =>
    simp [closeFrom_cons, step, ih h, Function.comp_def]
  | case2 out cs ih => simp [closeFrom_cons, step, ih (.code 0 h), Function.comp_def]
  | case3 | case5 => simp [closeFrom_cons, step]
  | case4 out cs hout ih | case6 out cs hout ih =>
    have hne : out ≠ [] := fun heq => hout heq
    simp [closeFrom_cons, step, hne, ih (h.out.resolve_left hne)]
  | case7 depth out cs ih => simp [closeFrom_cons, step, ih (h.withDepth depth)]
  | case8 depth out cs ih => simp [closeFrom_cons, step, ih (h.withDepth (depth + 1))]
  | case9 depth out cs ih => simp [closeFrom_cons, step, ih (.string h)]
  | case10 depth out cs ih => simp [closeFrom_cons, step, ih (.quote h)]
  | case12 out cs ih => simp [closeFrom_cons, step, h.quoteOut.ne_nil, ih h.quoteOut]
  | case14 => rfl
  | case13 frames c cs hescape hhash _ hquote _ hzero hclose hopen hstring hplain hescape' hplain' ih =>
    -- any other character: the frames stay, and so does what the rest of the text means
    cases ordinary_of_no_case h hescape hhash hquote hzero hclose hopen hstring hplain hescape'
        hplain' with
    | lastEscape hframe =>
      rcases hframe with rfl | rfl
      · exact closing_cons_of_step ih h (by simp [step]) (by simp [closeFrom])
      · exact closing_cons_of_step ih h (by simp [step]) (by simp [closeFrom])
    | string hb hhead hc =>
      by_cases hh : c = '#'
      · exact closing_cons_of_step ih h (by simp [step, hh])
          (by simp [step, hh, closeFrom_hash (hhead hh)])
      · exact closing_cons_of_step ih h (by simp [step, hb, hh, hc]) (by simp [step, hb, hh, hc])
    | code hc ho hs hp =>
      exact closing_cons_of_step ih h (by simp [step, hc, ho, hs, hp])
        (by simp [step, hc, ho, hs, hp])
    | quote hb hp => exact closing_cons_of_step ih h (by simp [step, hb, hp]) (by simp [step, hb, hp])

/-! ## Runs -/

@[simp] theorem run_nil (σ : Scanner) : σ.run [] = σ := rfl

@[simp] theorem run_cons (σ : Scanner) (c : Char) (cs : Text) :
    σ.run (c :: cs) = (σ.step c).run cs := rfl

theorem run_append (σ : Scanner) (u v : Text) : σ.run (u ++ v) = (σ.run u).run v :=
  List.foldl_append

theorem step_closed {σ : Scanner} (h : σ.frames = []) (c : Char) : (σ.step c).frames = [] := by
  obtain ⟨frames, mode⟩ := σ
  cases h
  rfl

/-- A scanner past the end stays there. -/
theorem run_closed {σ : Scanner} (h : σ.frames = []) (s : Text) : (σ.run s).frames = [] := by
  induction s generalizing σ with
  | nil => exact h
  | cons c cs ih => exact ih (step_closed h c)

theorem frames_ne_nil_of_run {σ : Scanner} {s : Text} (h : (σ.run s).frames ≠ []) :
    σ.frames ≠ [] := fun hσ => h (run_closed hσ s)

theorem step_open {σ : Scanner} (h : Open σ.frames) (c : Char) :
    (σ.step c).frames = [] ∨ Open (σ.step c).frames := by
  obtain ⟨frames, mode⟩ := σ
  match frames, h with
  | .string :: out, h =>
    simp only [step]
    split_ifs
    exacts [.inr h, .inr h, .inr h, .inr (.code 0 h), h.out, .inr h]
  | .code depth :: out, h =>
    simp only [step]
    split_ifs
    · exact .inr (.string h)
    · exact .inr (.quote h)
    · exact .inr (h.withDepth _)
    · cases depth with
      | zero => exact h.out
      | succ depth => exact .inr (h.withDepth depth)
    · exact .inr h
  | .quote :: out, h =>
    simp only [step]
    split_ifs
    exacts [.inr h, .inr h, .inr h.quoteOut, .inr h]

/-- As long as the end is not passed, the frames are nested as they come up. -/
theorem run_open {σ : Scanner} (h : Open σ.frames) {s : Text} (ho : (σ.run s).frames ≠ []) :
    Open (σ.run s).frames := by
  induction s generalizing σ with
  | nil => exact h
  | cons c cs ih => exact ih ((step_open h c).resolve_left (frames_ne_nil_of_run ho)) ho

/-- Only a backslash escapes the next character. -/
theorem step_escaped {σ : Scanner} {c : Char} (h : (σ.step c).mode = .escaped) : c = '\\' := by
  obtain ⟨frames, mode⟩ := σ
  match frames with
  | [] => cases h
  | .string :: out =>
    simp only [step] at h
    split_ifs at h with _ hb
    exact hb
  | .code depth :: out =>
    simp only [step] at h
    split_ifs at h
    cases depth <;> cases h
  | .quote :: out =>
    simp only [step] at h
    split_ifs at h with _ hb
    exact hb

theorem run_escaped {σ : Scanner} {s : Text} (hs : s ≠ []) (h : (σ.run s).mode = .escaped) :
    s.getLast? = some '\\' := by
  obtain ⟨u, c, rfl⟩ := List.eq_nil_or_concat s |>.resolve_left hs
  rw [List.concat_eq_append, run_append] at h
  rw [List.concat_eq_append, List.getLast?_concat, step_escaped h]

/-! ## Where the end is -/

theorem closeFrom_append {σ : Scanner} {u : Text} (h : (σ.run u).frames ≠ []) (v : Text) :
    σ.closeFrom (u ++ v) = ((σ.run u).closeFrom v).map (· + u.length) := by
  induction u generalizing σ with
  | nil => exact Option.map_id'.symm
  | cons c cs ih =>
    rw [List.cons_append, closeFrom_cons, if_neg (frames_ne_nil_of_run (s := cs) h), ih h,
      Option.map_map]
    rfl

theorem closeFrom_eq_none {σ : Scanner} (h : σ.frames ≠ []) (s : Text) :
    σ.closeFrom s = none ↔ (σ.run s).frames ≠ [] := by
  induction s generalizing σ with
  | nil => exact iff_of_true rfl h
  | cons c cs ih =>
    rw [closeFrom_cons, run_cons]
    by_cases hc : (σ.step c).frames = []
    · rw [if_pos hc]
      exact iff_of_false (Option.some_ne_none 0) fun hne => hne (run_closed hc cs)
    · rw [if_neg hc, Option.map_eq_none_iff, ih hc]

/-- The end is at the first character that leaves no frame. -/
theorem exists_of_closeFrom {σ : Scanner} {s : Text} {n : Nat} (h : σ.frames ≠ [])
    (hn : σ.closeFrom s = some n) : ∃ u c v, s = u ++ c :: v ∧ u.length = n ∧
      (σ.run u).frames ≠ [] ∧ ((σ.run u).step c).frames = [] := by
  induction s generalizing σ n with
  | nil => cases hn
  | cons c cs ih =>
    rw [closeFrom_cons] at hn
    by_cases hc : (σ.step c).frames = []
    · rw [if_pos hc] at hn
      cases hn
      exact ⟨[], c, cs, rfl, rfl, h, hc⟩
    · rw [if_neg hc] at hn
      obtain ⟨m, hm, rfl⟩ := Option.map_eq_some_iff.1 hn
      obtain ⟨u, d, v, rfl, rfl, hu, hd⟩ := ih hc hm
      exact ⟨c :: u, d, v, rfl, rfl, hu, hd⟩

theorem closeFrom_of_step {σ : Scanner} {u : Text} {c : Char} (hu : (σ.run u).frames ≠ [])
    (hc : ((σ.run u).step c).frames = []) (v : Text) :
    σ.closeFrom (u ++ c :: v) = some u.length := by
  rw [closeFrom_append hu, closeFrom_cons, if_pos hc, Option.map_some, Nat.zero_add]

/-- What closes the last frame is a quote or a brace. -/
theorem step_closes {σ : Scanner} {c : Char} (h : σ.frames ≠ []) (hc : (σ.step c).frames = []) :
    c = '"' ∨ c = '\'' ∨ c = '}' := by
  obtain ⟨frames, mode⟩ := σ
  match frames with
  | [] => exact absurd rfl h
  | .string :: out =>
    simp only [step] at hc
    split_ifs at hc with _ _ _ _ hq
    exact .inl hq
  | .code depth :: out =>
    simp only [step] at hc
    split_ifs at hc with _ _ _ hb
    exact .inr (.inr hb)
  | .quote :: out =>
    simp only [step] at hc
    split_ifs at hc with _ _ hq
    exact .inr (.inl hq)

/-! ## Characters without a meaning -/

/-- A character that no frame looks for. -/
def Inert (c : Char) : Prop :=
  c ≠ '\\' ∧ c ≠ '#' ∧ c ≠ '{' ∧ c ≠ '"' ∧ c ≠ '\'' ∧ c ≠ '}'

theorem inert_of_isWordChar {c : Char} (h : Scan.isWordChar c = true) : Inert c := by
  refine ⟨?_, ?_, ?_, ?_, ?_, ?_⟩ <;> exact ne_of_holds h (by decide)

theorem step_inert {σ : Scanner} {c : Char} (h : Inert c) : σ.step c = ⟨σ.frames, .plain⟩ := by
  obtain ⟨frames, mode⟩ := σ
  obtain ⟨hb, hh, ho, hs, hp, hc⟩ := h
  match frames with
  | [] => rfl
  | .string :: out => simp [step, hb, hh, ho, hs]
  | .code depth :: out => simp [step, hs, hp, ho, hc]
  | .quote :: out => simp [step, hb, hp]

theorem run_inert {frames : List Frame} {s : Text} (h : ∀ c ∈ s, Inert c) :
    run ⟨frames, .plain⟩ s = ⟨frames, .plain⟩ := by
  induction s with
  | nil => rfl
  | cons c cs ih =>
    rw [run_cons, step_inert (h c List.mem_cons_self), ih fun d hd => h d (List.mem_cons_of_mem c hd)]

theorem run_inert_of_ne_nil {σ : Scanner} {s : Text} (hs : s ≠ []) (h : ∀ c ∈ s, Inert c) :
    σ.run s = ⟨σ.frames, .plain⟩ := by
  cases s with
  | nil => exact absurd rfl hs
  | cons c cs =>
    rw [run_cons, step_inert (h c List.mem_cons_self),
      run_inert fun d hd => h d (List.mem_cons_of_mem c hd)]

/-- A literal without a special character inside, quotes and all, leaves the frames as they are unless
it closes the last one. -/
theorem run_literal {σ : Scanner} (hσ : Open σ.frames) (hm : σ.mode ≠ .escaped) {quote : Char}
    (hq : quote = '"' ∨ quote = '\'') {key : Text} (hkey : ∀ c ∈ key, Inert c)
    (ho : (σ.run (quote :: (key ++ [quote]))).frames ≠ []) :
    σ.run (quote :: (key ++ [quote])) = ⟨σ.frames, .plain⟩ := by
  obtain ⟨frames, mode⟩ := σ
  have hfirst : ((⟨frames, mode⟩ : Scanner).step quote).frames ≠ [] := frames_ne_nil_of_run ho
  simp only [ne_eq] at hm
  rw [run_cons, run_append]
  match frames, hσ with
  | .string :: out, h =>
    rcases hq with rfl | rfl
    · have hstep : step ⟨.string :: out, mode⟩ '"' = ⟨out, .plain⟩ := by simp [step, hm]
      rw [hstep] at hfirst ⊢
      cases h with
      | outerString => exact absurd rfl hfirst
      | string h => rw [run_inert hkey]; rfl
    · have hstep : step ⟨.string :: out, mode⟩ '\'' = ⟨.string :: out, .plain⟩ := by
        simp [step, hm]
      rw [hstep, run_inert hkey]
      rfl
  | .code depth :: out, h =>
    rcases hq with rfl | rfl <;>
    · rw [show step ⟨.code depth :: out, mode⟩ _ = ⟨_, .plain⟩ from rfl, run_inert hkey]
      rfl
  | .quote :: out, h =>
    rcases hq with rfl | rfl
    · have hstep : step ⟨.quote :: out, mode⟩ '"' = ⟨.quote :: out, .plain⟩ := by
        simp [step, hm]
      rw [hstep, run_inert hkey]
      rfl
    · have hstep : step ⟨.quote :: out, mode⟩ '\'' = ⟨out, .plain⟩ := by simp [step, hm]
      rw [hstep, run_inert hkey]
      cases h with
      | quote h => rfl

/-! ## Texts that read the same -/

/-- After both texts the scanner is in the same state, wherever it starts, unless it passes the end. -/
def Same (s s' : Text) : Prop :=
  ∀ σ : Scanner, Open σ.frames → (σ.run s).frames ≠ [] → σ.run s' = σ.run s

theorem Same.refl (s : Text) : Same s s := fun _ _ _ => rfl

theorem Same.append {s s' t t' : Text} (hs : Same s s') (ht : Same t t') :
    Same (s ++ t) (s' ++ t') := by
  intro σ hσ ho
  rw [run_append] at ho
  have hopen := frames_ne_nil_of_run ho
  rw [run_append, run_append, hs σ hσ hopen]
  exact ht _ (run_open hσ hopen) ho

theorem Same.closeFrom {s s' : Text} (h : Same s s') {σ : Scanner} (hσ : Open σ.frames) {c : Char}
    {rest : Text} (hc : σ.closeFrom (s ++ c :: rest) = some s.length) (rest' : Text) :
    σ.closeFrom (s' ++ c :: rest') = some s'.length := by
  obtain ⟨u, d, v, heq, hlength, hu, hd⟩ := exists_of_closeFrom hσ.ne_nil hc
  obtain ⟨rfl, hcons⟩ := List.append_inj heq hlength.symm
  obtain ⟨rfl, -⟩ := List.cons.inj hcons
  have hrun := h σ hσ hu
  refine closeFrom_of_step ?_ ?_ rest'
  · rw [hrun]
    exact hu
  · rw [hrun]
    exact hd

end Scanner

end SchemaLift.Quoted
