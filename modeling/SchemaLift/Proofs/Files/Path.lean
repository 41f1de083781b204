import Mathlib.Data.List.Nodup
import Mathlib.Data.List.Forall2
import SchemaLift.Files.Tree

/-!
# Paths by their parts

Paths are compared by their parts. Put in order, each path is there once, in the spelling that comes
first (`mem_inOrder_iff`), and which paths there are decides the order up to these spellings
(`map_parts_inOrder`). A path that leads somewhere leads where its parts do (`resolve_eq_ok`), so its
spelling makes no difference to what is read (`read_congr`).
-/

namespace SchemaLift

theorem PathPart.orderKey_inj {a b : PathPart} (h : a.orderKey = b.orderKey) : a = b := by
  cases a with
  | name n =>
    cases b with
    | name m =>
      exact congrArg name
        (List.map_injective_iff.2 (fun _ _ => Char.toNat_inj.1) (List.cons.inj h).2)
    | root | here | parent => cases h
  | root | here | parent => cases b <;> first | rfl | cases h

namespace Path

variable {p q r : Path} {ps qs : List Path}

/-! ## The order -/

/-- The order of paths, as one of their parts. -/
def leParts (a b : List PathPart) : Bool :=
  (List.compareLex (List.compareLex compare) (a.map PathPart.orderKey) (b.map PathPart.orderKey)).isLE

theorem precedes_eq (p q : Path) : precedes p q = leParts (parts p) (parts q) := rfl

theorem leParts_trans (a b c : List PathPart) (hab : leParts a b = true) (hbc : leParts b c = true) :
    leParts a c = true :=
  Std.TransCmp.isLE_trans hab hbc

theorem leParts_total (a b : List PathPart) : (leParts a b || leParts b a) = true := by
  have hswap : List.compareLex (List.compareLex compare) (b.map PathPart.orderKey)
      (a.map PathPart.orderKey) = (List.compareLex (List.compareLex compare)
        (a.map PathPart.orderKey) (b.map PathPart.orderKey)).swap := Std.OrientedCmp.eq_swap
  rw [leParts, leParts, hswap]
  cases List.compareLex (List.compareLex compare) (a.map PathPart.orderKey)
    (b.map PathPart.orderKey) <;> rfl

theorem leParts_antisymm {a b : List PathPart} (hab : leParts a b = true) (hba : leParts b a = true) :
    a = b :=
  List.map_injective_iff.2 (fun _ _ => PathPart.orderKey_inj)
    (Std.LawfulEqCmp.eq_of_compare (Std.OrientedCmp.isLE_antisymm hab hba))

theorem leParts_refl (a : List PathPart) : leParts a a = true := by
  simpa using leParts_total a a

theorem precedes_trans (p q r : Path) (hpq : precedes p q = true) (hqr : precedes q r = true) :
    precedes p r = true :=
  leParts_trans _ _ _ hpq hqr

theorem precedes_total (p q : Path) : (precedes p q || precedes q p) = true := leParts_total _ _

/-- One path comes before the other. -/
def Before (p q : Path) : Prop := precedes p q = true ∧ parts p ≠ parts q

theorem Before.of_le (hle : precedes p q = true) (h : Before q r) : Before p r := by
  refine ⟨leParts_trans _ _ _ hle h.1, fun heq => h.2 (leParts_antisymm h.1 ?_)⟩
  rw [← heq]
  exact hle

theorem eq_of_parts (h : ps.Pairwise Before) (hp : p ∈ ps) (hq : q ∈ ps) (heq : parts p = parts q) :
    p = q :=
  List.inj_on_of_nodup_map (List.pairwise_map.2 (h.imp And.right)) hp hq heq

theorem eq_of_map_parts (h : ps.map parts = qs.map parts)
    (hinj : ∀ p ∈ ps, ∀ q ∈ qs, parts p = parts q → p = q) : ps = qs := by
  have hlength : ps.length = qs.length := by rw [← List.length_map parts, h, List.length_map]
  refine List.ext_getElem hlength fun i hi hi' =>
    hinj _ (List.getElem_mem hi) _ (List.getElem_mem hi') ?_
  rw [← List.getElem_map parts (h := by rwa [List.length_map]),
    ← List.getElem_map parts (h := by rwa [List.length_map])]
  simp only [h]

/-! ## Each path once -/

/-- Whether two paths are the same but for their spelling. -/
def same (p q : Path) : Bool := parts q = parts p

theorem same_iff : same p q = true ↔ parts q = parts p := decide_eq_true_iff

/-- A path in front of an order, where nothing comes before it. -/
theorem pairwise_consDistinct (h : ps.Pairwise Before) (hq : ∀ p ∈ ps, precedes q p = true) :
    (consDistinct q ps).Pairwise Before := by
  cases ps with
  | nil => exact List.pairwise_singleton Before q
  | cons p ps =>
    obtain ⟨hp, hps⟩ := List.pairwise_cons.1 h
    have hle : precedes q p = true := hq p List.mem_cons_self
    have hbelow : ∀ r ∈ ps, Before q r := fun r hr => .of_le hle (hp r hr)
    rw [consDistinct]
    split
    · exact List.pairwise_cons.2 ⟨hbelow, hps⟩
    · rename_i hne
      exact List.pairwise_cons.2 ⟨List.forall_mem_cons.2 ⟨⟨hle, hne⟩, hbelow⟩, h⟩

theorem mem_consDistinct_iff (h : ps.Pairwise Before) (hq : ∀ p ∈ ps, precedes q p = true) :
    p ∈ consDistinct q ps ↔ p = q ∨ p ∈ ps ∧ parts q ≠ parts p := by
  cases ps with
  | nil => simp [consDistinct]
  | cons first ps =>
    obtain ⟨hfirst, hps⟩ := List.pairwise_cons.1 h
    have hle : precedes q first = true := hq first List.mem_cons_self
    have hbelow : p ∈ ps → parts q ≠ parts p := fun hp => (Before.of_le hle (hfirst p hp)).2
    rw [consDistinct]
    split
    · rename_i heq
      constructor
      · intro hp
        exact (List.mem_cons.1 hp).imp_right fun hp => ⟨List.mem_cons_of_mem first hp, hbelow hp⟩
      · rintro (rfl | ⟨hp, hne⟩)
        · exact List.mem_cons_self
        · refine List.mem_cons_of_mem q ((List.mem_cons.1 hp).resolve_left ?_)
          rintro rfl
          exact hne heq
    · rename_i hne
      constructor
      · intro hp
        refine (List.mem_cons.1 hp).imp_right fun hp => ⟨hp, ?_⟩
        rcases List.mem_cons.1 hp with rfl | hp
        · exact hne
        · exact hbelow hp
      · exact fun hp => List.mem_cons.2 (hp.imp_right And.left)

/-- Of neighbours that are the same path the first one is left. -/
theorem foldr_consDistinct (h : ps.Pairwise fun p q => precedes p q = true) :
    (ps.foldr consDistinct []).Pairwise Before ∧
      ∀ p, p ∈ ps.foldr consDistinct [] ↔ ps.find? (same p) = some p := by
  induction ps with
  | nil => exact ⟨.nil, fun p => by simp⟩
  | cons q ps ih =>
    obtain ⟨hq, hps⟩ := List.pairwise_cons.1 h
    obtain ⟨hbefore, hmem⟩ := ih hps
    have hle : ∀ p ∈ ps.foldr consDistinct [], precedes q p = true := fun p hp =>
      hq p (List.mem_of_find?_eq_some ((hmem p).1 hp))
    refine ⟨pairwise_consDistinct hbefore hle, fun p => ?_⟩
    rw [List.foldr_cons, mem_consDistinct_iff hbefore hle, hmem, List.find?_cons]
    cases hs : same p q with
    | true =>
      have heq : parts q = parts p := same_iff.1 hs
      simp [heq, eq_comm]
    | false =>
      have hne : parts q ≠ parts p := fun heq => by rw [same_iff.2 heq] at hs; cases hs
      have hpq : p ≠ q := fun heq => hne (by rw [heq])
      simp [hne, hpq]

/-! ## Paths in order -/

/-- The spellings of one path stay in their order. -/
theorem filter_mergeSort (p : Path) : (ps.mergeSort precedes).filter (same p) = ps.filter (same p) := by
  have hequal : (ps.filter (same p)).Pairwise fun a b => precedes a b = true := by
    refine List.pairwise_of_forall_mem_list fun a ha b hb => ?_
    rw [precedes_eq, same_iff.1 (List.mem_filter.1 ha).2, same_iff.1 (List.mem_filter.1 hb).2]
    exact leParts_refl _
  have hsub : (ps.filter (same p)).Sublist (ps.mergeSort precedes) :=
    List.sublist_mergeSort precedes_trans precedes_total hequal
      List.filter_sublist
  have hfilter := hsub.filter (same p)
  rw [List.filter_filter] at hfilter
  simp only [Bool.and_self] at hfilter
  exact (hfilter.eq_of_length (((List.mergeSort_perm ps precedes).filter _).length_eq).symm).symm

theorem pairwise_mergeSort (ps : List Path) :
    (ps.mergeSort precedes).Pairwise fun p q => precedes p q = true :=
  List.pairwise_mergeSort precedes_trans precedes_total ps

theorem pairwise_inOrder (ps : List Path) : (inOrder ps).Pairwise Before :=
  (foldr_consDistinct (pairwise_mergeSort ps)).1

/-- In order, every path is there in the spelling that comes first. -/
theorem mem_inOrder_iff : p ∈ inOrder ps ↔ ps.find? (same p) = some p := by
  rw [inOrder, (foldr_consDistinct (pairwise_mergeSort ps)).2, ← List.head?_filter, filter_mergeSort,
    List.head?_filter]

theorem mem_map_parts_inOrder {a : List PathPart} :
    a ∈ (inOrder ps).map parts ↔ a ∈ ps.map parts := by
  simp only [List.mem_map]
  constructor
  · rintro ⟨p, hp, rfl⟩
    exact ⟨p, List.mem_of_find?_eq_some (mem_inOrder_iff.1 hp), rfl⟩
  · rintro ⟨p, hp, rfl⟩
    obtain ⟨q, hq⟩ := Option.isSome_iff_exists.1
      (List.find?_isSome.2 ⟨p, hp, same_iff.2 rfl⟩ : (ps.find? (same p)).isSome = true)
    have heq : parts q = parts p := same_iff.1 (List.find?_some hq)
    have hsame : same q = same p := funext fun r => by rw [same, same, heq]
    exact ⟨q, mem_inOrder_iff.2 (hsame ▸ hq), heq⟩

/-- The order of paths depends on which there are only. -/
theorem map_parts_inOrder (h : ∀ a, a ∈ ps.map parts ↔ a ∈ qs.map parts) :
    (inOrder ps).map parts = (inOrder qs).map parts := by
  have hlt (rs : List Path) : ((inOrder rs).map parts).Pairwise fun a b => leParts a b = true ∧ a ≠ b :=
    List.pairwise_map.2 (pairwise_inOrder rs)
  have hle (rs : List Path) : ((inOrder rs).map parts).Pairwise fun a b => leParts a b = true :=
    (hlt rs).imp And.left
  have hnodup (rs : List Path) : ((inOrder rs).map parts).Nodup := (hlt rs).imp And.right
  refine List.Perm.eq_of_pairwise (fun a b _ _ => leParts_antisymm) (hle ps) (hle qs)
    ((List.perm_ext_iff_of_nodup (hnodup ps) (hnodup qs)).2 fun a => ?_)
  rw [mem_map_parts_inOrder, mem_map_parts_inOrder, h]

end Path

/-! ## Where paths lead -/

namespace FileTree

variable {t : FileTree} {p q : Path}

/-- The place one segment further. -/
def follow (place : Place) (segment : Text) : Place :=
  if Path.staysPut segment then place
  else if Path.isParent segment then place.dropLast
  else place ++ [segment]

/-- The place one part further, where relative paths start from the working directory. -/
def followPart (place : Place) : PathPart → Place
  | .root => []
  | .here => place
  | .parent => place.dropLast
  | .name n => place ++ [n]

theorem walk_eq_ok {place stop : Place} {segments : List Text}
    (h : t.walk place segments = .ok stop) : stop = segments.foldl follow place := by
  induction segments generalizing place with
  | nil => exact (Except.ok.inj h).symm
  | cons segment rest ih =>
    rw [List.foldl_cons, follow]
    rw [walk] at h
    split at h
    · cases h
    · split_ifs at h ⊢
      all_goals exact ih h

/-- A path that leads somewhere leads to its place. -/
theorem resolve_eq_ok {place : Place} (h : t.resolve p = .ok place) : place = t.placeOf p := by
  unfold resolve at h
  split at h
  · cases h
  · exact walk_eq_ok h

theorem foldl_follow (place : Place) (segments : List Text) :
    segments.foldl follow place = (segments.filterMap Path.part?).foldl followPart place := by
  induction segments generalizing place with
  | nil => rfl
  | cons segment rest ih =>
    rw [List.foldl_cons, ih, follow, List.filterMap_cons, Path.part?]
    split
    · rfl
    · split <;> rfl

/-- The place of a path depends on its parts only. -/
theorem placeOf_eq (t : FileTree) (p : Path) :
    t.placeOf p = (Path.parts p).foldl followPart t.workingDirectory := by
  have hplace : t.placeOf p =
      (Path.segments p).foldl follow (if Path.isAbsolute p then [] else t.workingDirectory) := rfl
  rw [hplace, Path.parts]
  cases hsegments : Path.segments p with
  | nil => exact absurd hsegments (Text.splitOn_ne_nil '/' p)
  | cons first rest =>
    rw [List.foldl_cons, foldl_follow, List.foldl_append]
    refine congrArg (fun place => (rest.filterMap Path.part?).foldl followPart place) ?_
    by_cases habsolute : Path.isAbsolute p = true
    · -- the slash ends an empty segment
      obtain ⟨cs, rfl⟩ := List.head?_eq_some_iff.1 (beq_iff_eq.1 habsolute)
      obtain ⟨rfl, -⟩ := List.cons.inj hsegments
      rw [if_pos habsolute, if_pos habsolute]
      rfl
    · rw [if_neg habsolute, if_neg habsolute]
      by_cases hdot : first = ['.']
      · rw [if_pos hdot, hdot]
        rfl
      · have hfirst := foldl_follow t.workingDirectory [first]
        rw [if_neg hdot]
        rw [List.foldl_cons, List.foldl_nil] at hfirst
        rw [hfirst, List.filterMap_cons, List.filterMap_nil]
        cases Path.part? first <;> rfl

theorem placeOf_congr (h : Path.parts p = Path.parts q) : t.placeOf p = t.placeOf q := by
  rw [placeOf_eq, placeOf_eq, h]

/-- What is read does not depend on how the path is spelled. -/
theorem read_congr (hp : t.isFile p = true) (hq : t.isFile q = true)
    (h : Path.parts p = Path.parts q) : t.read p = t.read q := by
  have hresolve : ∀ r, t.isFile r = true → t.resolve r = .ok (t.placeOf r) := by
    intro r hr
    unfold isFile node? at hr
    cases hplace : t.resolve r with
    | error e => rw [hplace] at hr; cases hr
    | ok place => rw [resolve_eq_ok hplace]
  rw [read, read, hresolve p hp, hresolve q hq, placeOf_congr h]

end FileTree

end SchemaLift
