/-
# Malformed lines of a configuration file

The scanner recovers from a line that is no item by skipping to the end of the line it stands
on. It may stand on a later one by then, because it takes the end of a line for white space. The
lines from which it recovers before that are those whose last pass ends in the line; any other
malformed line changes what is taken from the next one.
-/

import Mathlib.Data.List.Forall2
import ClayFigure.Kernel.ConfigScan

namespace ClayFigure

/-! ## Lines -/

/-- A file of lines that each have an end. -/
def ofLines (lines : List (List Byte)) : List Byte := lines.flatMap (· ++ [10])

/-- What `parse_config` takes from a file of lines. -/
def takes (past : Nat → Byte) (stack : Nat → ConfItem) (lines : List (List Byte)) :
    Option (List Pair) :=
  (parseConfig past stack (ofLines lines)).map (List.map ConfItem.pair)

/-- `# ...`. -/
def IsComment (l : List Byte) : Prop := ∃ ws text, Spaces ws ∧ l = ws ++ 35 :: text

/-- `NAME = [VALUE]`. -/
inductive IsItem : List Byte → Pair → Prop
  | mk {ws name ws' ws'' gap val last : List Byte} (hopen : Opening ws name ws')
      (hname : name ≠ []) (hws'' : Spaces ws'') (hgap : Spaces gap) (hval : ValueRun val)
      (hlast : Spaces last) :
      IsItem (ws ++ (name ++ (ws' ++ 61 :: (ws'' ++ 91 :: (gap ++ (val ++ 93 :: last))))))
        (name, val)

/-- Neither a comment nor an item. -/
def Malformed (l : List Byte) : Prop := ¬IsComment l ∧ ∀ p, ¬IsItem l p

/-- The items of the passes of a line, up to where the last pass starts. -/
inductive Chain : List Byte → List Pair → List Byte → Prop
  | nil {l : List Byte} : Chain l [] l
  | cons {head rest l : List Byte} {b : Byte} {p : Pair} {ps : List Pair}
      (hhead : Head head (some p)) (hrest : Chain rest ps l) :
      Chain (head ++ b :: rest) (p :: ps) l

/-- A last pass that ends with its line. -/
inductive Ends : List Byte → List Pair → Prop
  | blank {ws : List Byte} (hws : Spaces ws) : Ends ws []
  | skipped {head text : List Byte} (hhead : Head head none) : Ends (head ++ text) []
  | item {head : List Byte} {p : Pair} (hhead : Head head (some p)) : Ends head [p]

/-- The scanner is back at the start of a line behind this one, and has taken these items. -/
def RecoversWith (l : List Byte) (ps : List Pair) : Prop :=
  ∃ qs r rs, Chain l qs r ∧ Ends r rs ∧ ps = qs ++ rs

def Recovers (l : List Byte) : Prop := ∃ ps, RecoversWith l ps

/-! ## Runs -/

section Runs

variable {past : Nat → Byte} {stack : Nat → ConfItem} {src src' src'' : Cursor}
  {ps qs : List Pair}

/-- The loop comes from one cursor to another and takes these items, if there is room. -/
def Reaches (past : Nat → Byte) (stack : Nat → ConfItem) (src : Cursor) (ps : List Pair)
    (src' : Cursor) : Prop :=
  ∀ fuel (items : List ConfItem), src.left.length < fuel → items.length ≤ 64 →
    (items.length + ps.length ≤ 64 → ∃ fuel' its, src'.left.length < fuel' ∧
      its.map ConfItem.pair = ps ∧
      parseLoop past stack fuel src items = parseLoop past stack fuel' src' (items ++ its)) ∧
    (64 < items.length + ps.length → parseLoop past stack fuel src items = none)

theorem Reaches.refl (src : Cursor) : Reaches past stack src [] src := by
  intro fuel items hfuel hitems
  refine ⟨fun _ => ⟨fuel, [], hfuel, rfl, ?_⟩, fun hover => ?_⟩
  · rw [List.append_nil]
  · rw [List.length_nil] at hover
    omega

theorem Reaches.trans (h : Reaches past stack src ps src') (h' : Reaches past stack src' qs src'') :
    Reaches past stack src (ps ++ qs) src'' := by
  intro fuel items hfuel hitems
  obtain ⟨hroom, hfull⟩ := h fuel items hfuel hitems
  rw [List.length_append]
  by_cases hps : items.length + ps.length ≤ 64
  · obtain ⟨fuel', its, hfuel', hpairs, hrun⟩ := hroom hps
    have hlen : (items ++ its).length = items.length + ps.length := by
      rw [List.length_append, ← hpairs, List.length_map]
    obtain ⟨hroom', hfull'⟩ := h' fuel' (items ++ its) hfuel' (by omega)
    rw [hlen] at hroom' hfull'
    rw [hrun]
    refine ⟨fun hle => ?_, fun hover => hfull' (by omega)⟩
    obtain ⟨fuel'', its', hfuel'', hpairs', hrun'⟩ := hroom' (by omega)
    refine ⟨fuel'', its ++ its', hfuel'', ?_, ?_⟩
    · rw [List.map_append, hpairs, hpairs']
    · rw [hrun', List.append_assoc]
  · exact ⟨fun hle => absurd (by omega) hps, fun _ => hfull (by omega)⟩

/-- A head with an item and the byte that is skipped behind it. -/
theorem Head.reaches_some {head : List Byte} {p : Pair} (h : Head head (some p))
    (rest : List Byte) (behind : Nat) :
    Reaches past stack ⟨head ++ rest, behind⟩ [p] (Cursor.mk rest behind).advance := by
  intro fuel items hfuel hitems
  obtain ⟨fuel, rfl⟩ := Nat.exists_eq_succ_of_ne_zero (Nat.ne_of_gt (Nat.zero_lt_of_lt hfuel))
  have hpos := h.length_pos
  rw [List.length_append] at hfuel
  rw [List.length_singleton, h.parseLoop_some]
  refine ⟨fun hle => ⟨fuel, [(stack fuel).filled p], ?_, ?_, ?_⟩, fun hover => ?_⟩
  · cases rest with
    | nil =>
        show 0 < fuel
        omega
    | cons b rest =>
        rw [List.length_cons] at hfuel
        show rest.length < fuel
        omega
  · rw [List.map_singleton, ConfItem.pair_filled]
  · rw [if_pos (by omega)]
  · rw [if_neg (by omega)]

/-- A head without an item, and the rest of its line. -/
theorem Head.reaches_none {head text : List Byte} (h : Head head none) (htext : 10 ∉ text)
    (rest : List Byte) (behind : Nat) :
    Reaches past stack ⟨head ++ (text ++ 10 :: rest), behind⟩ [] ⟨rest, behind⟩ := by
  intro fuel items hfuel hitems
  obtain ⟨fuel, rfl⟩ := Nat.exists_eq_succ_of_ne_zero (Nat.ne_of_gt (Nat.zero_lt_of_lt hfuel))
  have hpos := h.length_pos
  simp only [List.length_append, List.length_cons] at hfuel
  rw [h.parseLoop_none, skipLine_eq htext]
  refine ⟨fun _ => ⟨fuel, [], ?_, rfl, ?_⟩, fun hover => ?_⟩
  · show rest.length < fuel
    omega
  · rw [List.append_nil]
    rfl
  · rw [List.length_nil] at hover
    omega

variable (past stack) in
/-- White space, the ends of lines among it. -/
theorem reaches_spaces {ws : List Byte} (hws : Spaces ws) (rest : List Byte) (behind : Nat) :
    Reaches past stack ⟨ws ++ rest, behind⟩ [] ⟨rest, behind⟩ := by
  intro fuel items hfuel hitems
  obtain ⟨fuel, rfl⟩ := Nat.exists_eq_succ_of_ne_zero (Nat.ne_of_gt (Nat.zero_lt_of_lt hfuel))
  rw [List.length_append] at hfuel
  rw [parseLoop_blank ws hws]
  refine ⟨fun _ => ⟨fuel + 1, [], ?_, rfl, ?_⟩, fun hover => ?_⟩
  · show rest.length < fuel + 1
    omega
  · rw [List.append_nil]
  · rw [List.length_nil] at hover
    omega

theorem Chain.reaches {l r : List Byte} (h : Chain l ps r) (rest : List Byte) (behind : Nat) :
    Reaches past stack ⟨l ++ rest, behind⟩ ps ⟨r ++ rest, behind⟩ := by
  induction h with
  | nil => exact .refl _
  | @cons head l' r b p ps hhead hrest ih =>
      rw [List.append_assoc, List.cons_append]
      exact (hhead.reaches_some (b :: (l' ++ rest)) behind).trans ih

theorem Chain.subset {l r : List Byte} (h : Chain l ps r) : r ⊆ l := by
  induction h with
  | nil => exact List.Subset.refl _
  | cons hhead hrest ih =>
      exact List.Subset.trans ih
        (List.subset_append_of_subset_right _ (List.subset_cons_self _ _))

/-- A line from which the scanner recovers is taken by itself. -/
theorem RecoversWith.reaches {l : List Byte} (h : RecoversWith l ps) (hl : 10 ∉ l)
    (rest : List Byte) (behind : Nat) :
    Reaches past stack ⟨l ++ 10 :: rest, behind⟩ ps ⟨rest, behind⟩ := by
  obtain ⟨qs, r, rs, hchain, hends, rfl⟩ := h
  refine (hchain.reaches (10 :: rest) behind).trans ?_
  have hr : 10 ∉ r := fun hmem => hl (hchain.subset hmem)
  cases hends with
  | blank hws =>
      have hspaces : Spaces (r ++ [10]) := by
        intro b hb
        rcases List.mem_append.mp hb with hb | hb
        · exact hws b hb
        · obtain rfl := List.mem_singleton.mp hb
          rfl
      have h := reaches_spaces past stack hspaces rest behind
      rwa [List.append_assoc, List.singleton_append] at h
  | @skipped head text hhead =>
      rw [List.append_assoc]
      exact hhead.reaches_none (fun hmem => hr (List.mem_append_right head hmem)) rest behind
  | item hhead => exact hhead.reaches_some (10 :: rest) behind

/-- A file that the loop comes to the end of. -/
theorem Reaches.takes_eq {lines : List (List Byte)} {behind : Nat}
    (h : Reaches past stack (.ofFile (ofLines lines)) ps ⟨[], behind⟩) :
    takes past stack lines = if ps.length ≤ 64 then some ps else none := by
  obtain ⟨hroom, hfull⟩ := h ((ofLines lines).length + 1) [] (Nat.lt_succ_self _)
    (Nat.zero_le _)
  rw [List.length_nil, Nat.zero_add] at hroom hfull
  rw [takes, parseConfig]
  by_cases hps : ps.length ≤ 64
  · obtain ⟨fuel, its, hfuel, hpairs, hrun⟩ := hroom hps
    obtain ⟨fuel, rfl⟩ := Nat.exists_eq_succ_of_ne_zero (Nat.ne_of_gt hfuel)
    rw [hrun, parseLoop_end, List.nil_append, Option.map_some, hpairs, if_pos hps]
  · rw [hfull (by omega), if_neg hps]
    rfl

variable (past stack) in
/-- Lines from which the scanner recovers, one after the other. -/
theorem reaches_lines {lines : List (List Byte)} {pss : List (List Pair)}
    (h : List.Forall₂ RecoversWith lines pss) (hlines : ∀ l ∈ lines, 10 ∉ l)
    (rest : List Byte) (behind : Nat) :
    Reaches past stack ⟨ofLines lines ++ rest, behind⟩ pss.flatten ⟨rest, behind⟩ := by
  induction h with
  | nil => exact .refl _
  | @cons l ps lines pss hl hrest ih =>
      have htext : ofLines (l :: lines) ++ rest = l ++ 10 :: (ofLines lines ++ rest) := by
        simp only [ofLines, List.flatMap_cons, List.append_assoc, List.cons_append,
          List.nil_append]
      rw [htext, List.flatten_cons]
      exact (hl.reaches (hlines l List.mem_cons_self) _ behind).trans
        (ih fun m hm => hlines m (List.mem_cons_of_mem l hm))

variable (past stack) in
theorem takes_lines {lines : List (List Byte)} {pss : List (List Pair)}
    (h : List.Forall₂ RecoversWith lines pss) (hlines : ∀ l ∈ lines, 10 ∉ l) :
    takes past stack lines =
      if pss.flatten.length ≤ 64 then some pss.flatten else none := by
  have hreach := reaches_lines past stack h hlines [] 0
  rw [List.append_nil] at hreach
  exact hreach.takes_eq

end Runs

/-! ## Well-formed lines -/

theorem IsComment.recoversWith {l : List Byte} (h : IsComment l) : RecoversWith l [] := by
  obtain ⟨ws, text, hws, rfl⟩ := h
  refine ⟨[], _, [], .nil, ?_, rfl⟩
  have hends : Ends (ws ++ [35] ++ text) [] := .skipped (.comment hws)
  rwa [List.append_assoc, List.singleton_append] at hends

theorem IsItem.equals_mem {l : List Byte} {p : Pair} (h : IsItem l p) : 61 ∈ l := by
  cases h with
  | mk =>
      simp only [List.mem_append, List.mem_cons]
      tauto

theorem IsItem.recoversWith {l : List Byte} {p : Pair} (h : IsItem l p) :
    RecoversWith l [p] := by
  cases h with
  | @mk ws name ws' ws'' gap val last hopen hname hws'' hgap hval hlast =>
      have hhead := Head.item (b := 93) hopen hws'' hgap hval (Or.inl rfl)
      cases last with
      | nil => exact ⟨[], _, _, .nil, .item hhead, rfl⟩
      | cons b last =>
          have hchain := Chain.cons (b := b) hhead (Chain.nil (l := last))
          simp only [List.append_assoc, List.cons_append, List.nil_append] at hchain
          exact ⟨_, _, _, hchain,
            .blank fun c hc => hlast c (List.mem_cons_of_mem b hc), rfl⟩

/-- A local `item` before anything is stored in it. -/
def emptyItem : ConfItem := ⟨[], 0, [], 0⟩

/-- The items of a line are those that a file of this line has. -/
theorem RecoversWith.unique {l : List Byte} {ps qs : List Pair} (h : RecoversWith l ps)
    (h' : RecoversWith l qs) (hl : 10 ∉ l) (hps : ps.length ≤ 64) : ps = qs := by
  have htakes : ∀ rs, RecoversWith l rs →
      takes (fun _ => 0) (fun _ => emptyItem) [l] =
        if rs.length ≤ 64 then some rs else none := by
    intro rs hrs
    have heq := takes_lines (fun _ => 0) (fun _ => emptyItem) (.cons hrs .nil)
      (List.forall_mem_singleton.mpr hl)
    rwa [List.flatten_cons, List.flatten_nil, List.append_nil] at heq
  have hboth := (htakes ps h).symm.trans (htakes qs h')
  rw [if_pos hps] at hboth
  by_cases hqs : qs.length ≤ 64
  · rw [if_pos hqs] at hboth
    exact Option.some.inj hboth
  · rw [if_neg hqs] at hboth
    exact nomatch hboth

/-! ## Removing a line -/

/-- What a line contributes: nothing if it is a comment, its item if it is one. -/
def Yields (l : List Byte) (ps : List Pair) : Prop :=
  (IsComment l → ps = []) ∧ ∀ p, IsItem l p → ps = [p]

/-- The lines before and behind a line contribute the same with it and without it. -/
def Removable (past : Nat → Byte) (stack : Nat → ConfItem) (pre : List (List Byte))
    (l : List Byte) (post : List (List Byte)) : Prop :=
  ∃ before own behind, List.Forall₂ Yields pre before ∧ List.Forall₂ Yields post behind ∧
    takes past stack (pre ++ l :: post) = some (before.flatten ++ own ++ behind.flatten) ∧
    takes past stack (pre ++ post) = some (before.flatten ++ behind.flatten)

/-- The files in question: at most 64 items, and no value that goes over the end of a line. -/
def InScope (past : Nat → Byte) (stack : Nat → ConfItem) (lines : List (List Byte)) : Prop :=
  ∃ items, takes past stack lines = some items ∧ ∀ p ∈ items, 10 ∉ p.2

/-- Lines from which the scanner recovers if they are malformed. -/
def Sound (lines : List (List Byte)) : Prop :=
  ∀ l ∈ lines, 10 ∉ l ∧ (Malformed l → Recovers l)

/-- A sound line is taken by itself, and yields what it should. -/
theorem exists_yields {l : List Byte} (hl : 10 ∉ l) (h : Malformed l → Recovers l) :
    ∃ ps, RecoversWith l ps ∧ Yields l ps := by
  by_cases hitem : ∃ p, IsItem l p
  · obtain ⟨p, hp⟩ := hitem
    have hone : [p].length ≤ 64 := by
      rw [List.length_singleton]
      decide
    exact ⟨[p], hp.recoversWith,
      fun hcomment => hp.recoversWith.unique hcomment.recoversWith hl hone,
      fun q hq => hp.recoversWith.unique hq.recoversWith hl hone⟩
  · rw [not_exists] at hitem
    by_cases hcomment : IsComment l
    · exact ⟨[], hcomment.recoversWith, fun _ => rfl, fun p hp => absurd hp (hitem p)⟩
    · obtain ⟨ps, hps⟩ := h ⟨hcomment, hitem⟩
      exact ⟨ps, hps, fun hc => absurd hc hcomment, fun p hp => absurd hp (hitem p)⟩

theorem Sound.exists_yields {lines : List (List Byte)} (h : Sound lines) :
    ∃ pss, List.Forall₂ RecoversWith lines pss ∧ List.Forall₂ Yields lines pss := by
  induction lines with
  | nil => exact ⟨[], .nil, .nil⟩
  | cons l lines ih =>
      obtain ⟨pss, hrecovers, hyields⟩ := ih fun m hm => h m (List.mem_cons_of_mem l hm)
      obtain ⟨hl, hmal⟩ := h l List.mem_cons_self
      obtain ⟨ps, hps, hyield⟩ := ClayFigure.exists_yields hl hmal
      exact ⟨ps :: pss, .cons hps hrecovers, .cons hyield hyields⟩

/-- A line from which the scanner recovers can be removed. -/
theorem Recovers.removable {past : Nat → Byte} {stack : Nat → ConfItem} {l : List Byte}
    {pre post : List (List Byte)} (h : Recovers l) (hl : 10 ∉ l) (hpre : Sound pre)
    (hpost : Sound post) (hscope : InScope past stack (pre ++ l :: post)) :
    Removable past stack pre l post := by
  obtain ⟨own, hown⟩ := h
  obtain ⟨before, hbefore, hyields⟩ := hpre.exists_yields
  obtain ⟨behind, hbehind, hyields'⟩ := hpost.exists_yields
  have hwith := takes_lines past stack (List.rel_append hbefore (.cons hown hbehind)) (by
    intro m hm
    rcases List.mem_append.mp hm with hm | hm
    · exact (hpre m hm).1
    · rcases List.mem_cons.mp hm with rfl | hm
      · exact hl
      · exact (hpost m hm).1)
  have hwithout := takes_lines past stack (List.rel_append hbefore hbehind) (by
    intro m hm
    rcases List.mem_append.mp hm with hm | hm
    · exact (hpre m hm).1
    · exact (hpost m hm).1)
  rw [List.flatten_append, List.flatten_cons, ← List.append_assoc] at hwith
  rw [List.flatten_append] at hwithout
  have hlen : (before.flatten ++ own ++ behind.flatten).length ≤ 64 := by
    by_contra hlong
    obtain ⟨items, htakes, -⟩ := hscope
    rw [hwith, if_neg hlong] at htakes
    exact nomatch htakes
  refine ⟨before, own, behind, hyields, hyields', ?_, ?_⟩
  · rw [hwith, if_pos hlen]
  · rw [hwithout, if_pos]
    simp only [List.length_append] at hlen ⊢
    omega

/-! ## A line that is not recovered from -/

/-- Every line is a chain of items and a last pass that ends or is not finished. -/
theorem chain_total (l : List Byte) :
    ∃ ps r, Chain l ps r ∧ ((∃ rs, Ends r rs) ∨ Unfinished r) := by
  induction hlen : l.length using Nat.strong_induction_on generalizing l with
  | _ n ih =>
      rcases head_or_unfinished l with ⟨head, p, rest, rfl, hhead⟩ | hstuck
      · cases p with
        | none => exact ⟨[], _, .nil, Or.inl ⟨[], .skipped hhead⟩⟩
        | some p =>
            cases rest with
            | nil =>
                rw [List.append_nil]
                exact ⟨[], _, .nil, Or.inl ⟨[p], .item hhead⟩⟩
            | cons b rest =>
                rw [List.length_append, List.length_cons] at hlen
                obtain ⟨ps, r, hchain, hend⟩ := ih rest.length (by omega) rest rfl
                exact ⟨p :: ps, r, .cons hhead hchain, hend⟩
      · exact ⟨[], l, .nil, Or.inr hstuck⟩

theorem Head.val_subset {head : List Byte} {p : Pair} (h : Head head (some p)) :
    p.2 ⊆ head := by
  cases h with
  | item hopen hws'' hgap hval hb =>
      intro b hb
      simp only [List.mem_append, List.mem_cons]
      tauto

/-- The values of a chain are of its line. -/
theorem Chain.val_subset {l r : List Byte} {ps : List Pair} (h : Chain l ps r) :
    ∀ p ∈ ps, p.2 ⊆ l := by
  induction h with
  | nil => exact fun p hp => absurd hp List.not_mem_nil
  | @cons head rest r b p ps hhead hrest ih =>
      intro q hq
      rcases List.mem_cons.mp hq with rfl | hq
      · exact List.subset_append_of_subset_left _ hhead.val_subset
      · exact List.subset_append_of_subset_right _
          (List.subset_cons_of_subset _ (ih q hq))

/-- What has been stored stays. -/
theorem parseLoop_extends {past : Nat → Byte} {stack : Nat → ConfItem} :
    ∀ (fuel : Nat) (src : Cursor) (items items' : List ConfItem),
      parseLoop past stack fuel src items = some items' → items <+: items' := by
  intro fuel
  induction fuel with
  | zero =>
      intro src items items' hrun
      cases hrun
  | succ fuel ih =>
      intro src items items' hrun
      rw [parseLoop] at hrun
      by_cases hnil : src.left = []
      · rw [if_pos hnil] at hrun
        exact (Option.some.inj hrun) ▸ List.prefix_refl _
      · rw [if_neg hnil] at hrun
        by_cases hblank : src.skipSpace.left = []
        · rw [if_pos hblank] at hrun
          exact (Option.some.inj hrun) ▸ List.prefix_refl _
        · rw [if_neg hblank] at hrun
          by_cases hhash : src.skipSpace.deref past = 35
          · rw [if_pos hhash] at hrun
            exact ih _ _ _ hrun
          · rw [if_neg hhash] at hrun
            rcases hread : readItem past src.skipSpace (stack fuel) with ⟨status, src', item⟩
            rw [hread] at hrun
            cases status
            case kSuccess =>
              dsimp only at hrun
              by_cases hroom : items.length < 64
              · rw [if_pos hroom] at hrun
                exact (List.prefix_append _ _).trans (ih _ _ _ hrun)
              · rw [if_neg hroom] at hrun
                cases hrun
            all_goals exact ih _ _ _ hrun

/-- Any bytes behind a `[`. -/
theorem exists_value (left : List Byte) :
    ∃ ws val rest, left = ws ++ (val ++ rest) ∧ Spaces ws ∧ ValueRun val ∧
      ∀ b, rest.head? = some b → val.length < 63 → b = 93 := by
  obtain ⟨ws, left, rfl, hws, hleft⟩ := exists_run isSpace left
  obtain ⟨val, rest, rfl, hplain, hlen, hstop⟩ :=
    exists_run_le (fun b => decide (b ≠ 93)) left
  refine ⟨ws, val, rest, rfl, hws, ⟨fun b hb => of_decide_eq_true (hplain b hb), ?_, hlen⟩, ?_⟩
  · intro b hb
    apply hleft b
    rw [List.head?_append, hb]
    rfl
  · exact fun b hb hshort => not_not.mp (of_decide_eq_false (hstop b hb hshort))

/-- A value that is still open at the end of its line goes over it. -/
theorem mem_of_open {val val' rest rest' : List Byte} (hplain : ∀ b ∈ val, b ≠ 93)
    (hshort : val.length < 63) (heq : val ++ 10 :: rest = val' ++ rest')
    (hstop : ∀ b, rest'.head? = some b → val'.length < 63 → b = 93) : 10 ∈ val' := by
  rcases List.append_eq_append_iff.mp heq with ⟨more, rfl, hmore⟩ | ⟨more, rfl, hmore⟩
  · cases more with
    | nil =>
        rw [List.nil_append] at hmore
        have h10 := hstop 10 (by rw [← hmore]; rfl) (by rwa [List.append_nil])
        exact absurd h10 (by decide)
    | cons c more =>
        obtain ⟨rfl, -⟩ := List.cons.inj hmore
        exact List.mem_append_right _ List.mem_cons_self
  · rw [List.length_append] at hshort
    cases more with
    | nil =>
        have h10 := hstop 10 (by rw [hmore]; rfl) (by omega)
        exact absurd h10 (by decide)
    | cons c more =>
        have hc := hstop c (by rw [hmore]; rfl) (by omega)
        exact absurd hc (hplain c (List.mem_append_right _ List.mem_cons_self))

section Scope

variable {past : Nat → Byte} {stack : Nat → ConfItem} {l r : List Byte} {ps : List Pair}

theorem ofLines_append (lines lines' : List (List Byte)) :
    ofLines (lines ++ lines') = ofLines lines ++ ofLines lines' :=
  List.flatMap_append

theorem ofLines_cons (l : List Byte) (lines : List (List Byte)) :
    ofLines (l :: lines) = l ++ 10 :: ofLines lines := by
  simp only [ofLines, List.flatMap_cons, List.append_assoc, List.cons_append, List.nil_append]

/-- In a file in question the loop comes to the last pass of a line, with room for what it has
taken by then. -/
theorem InScope.last_pass {pre post : List (List Byte)} (hpre : Sound pre)
    (h : InScope past stack (pre ++ l :: post)) (hchain : Chain l ps r) :
    ∃ fuel its items, ps.length ≤ its.length ∧ its.length ≤ 64 ∧
      parseLoop past stack (fuel + 1) ⟨r ++ 10 :: ofLines post, 0⟩ its = some items ∧
      ∀ item ∈ items, 10 ∉ item.pair.2 := by
  obtain ⟨before, hbefore, -⟩ := hpre.exists_yields
  obtain ⟨pairs, htakes, hvals⟩ := h
  have hreach : Reaches past stack (.ofFile (ofLines (pre ++ l :: post)))
      (before.flatten ++ ps) ⟨r ++ 10 :: ofLines post, 0⟩ := by
    rw [ofLines_append, ofLines_cons, Cursor.ofFile]
    exact (reaches_lines past stack hbefore (fun m hm => (hpre m hm).1) _ 0).trans
      (hchain.reaches _ 0)
  obtain ⟨hroom, hfull⟩ := hreach ((ofLines (pre ++ l :: post)).length + 1) []
    (Nat.lt_succ_self _) (Nat.zero_le _)
  rw [List.length_nil, Nat.zero_add] at hroom hfull
  rw [takes, parseConfig] at htakes
  by_cases hlen : (before.flatten ++ ps).length ≤ 64
  · obtain ⟨fuel, its, hfuel, hpairs, hrun⟩ := hroom hlen
    obtain ⟨fuel, rfl⟩ := Nat.exists_eq_succ_of_ne_zero (Nat.ne_of_gt (Nat.zero_lt_of_lt hfuel))
    have hits : its.length = (before.flatten ++ ps).length := by
      rw [← hpairs, List.length_map]
    rw [hrun, List.nil_append] at htakes
    obtain ⟨items, hitems, hmap⟩ := Option.map_eq_some_iff.mp htakes
    refine ⟨fuel, its, items, ?_, by omega, hitems, fun item hitem => ?_⟩
    · rw [hits, List.length_append]
      exact Nat.le_add_left _ _
    · apply hvals
      rw [← hmap]
      exact List.mem_map_of_mem hitem
  · rw [hfull (by omega)] at htakes
    exact nomatch htakes

/-- A value that is not closed in its line has no byte yet or has 63 already, and there is room
for its item. -/
theorem InScope.value {pre post : List (List Byte)} (hpre : Sound pre)
    (h : InScope past stack (pre ++ l :: post)) {ws name ws' ws'' gap val : List Byte}
    (hopen : Opening ws name ws') (hws'' : Spaces ws'') (hgap : Spaces gap)
    (hval : ValueRun val)
    (hchain : Chain l ps (ws ++ (name ++ (ws' ++ 61 :: (ws'' ++ 91 :: (gap ++ val)))))) :
    ps.length + 1 ≤ 64 ∧ (val = [] ∨ val.length = 63) := by
  obtain ⟨fuel, its, items, hle, hits, hrun, hvals⟩ := h.last_pass hpre hchain
  obtain ⟨ws₄, val', rest', heq, hws₄, hval', hstop⟩ :=
    exists_value (val ++ 10 :: ofLines post)
  have htext : ws ++ (name ++ (ws' ++ 61 :: (ws'' ++ 91 :: (gap ++ val)))) ++
        10 :: ofLines post =
      ws ++ (name ++ (ws' ++ 61 :: (ws'' ++ 91 :: ((gap ++ ws₄) ++ (val' ++ rest'))))) := by
    simp only [List.append_assoc, List.cons_append]
    rw [heq]
  have hspaces : Spaces (gap ++ ws₄) := fun b hb =>
    (List.mem_append.mp hb).elim (hgap b) (hws₄ b)
  rw [htext, parseLoop_value hopen hws'' hspaces hval' hstop] at hrun
  by_cases hroom : its.length < 64
  · rw [if_pos hroom] at hrun
    refine ⟨by omega, ?_⟩
    by_contra hnot
    rw [not_or] at hnot
    have hshort : val.length < 63 := lt_of_le_of_ne hval.length_le hnot.2
    -- the value starts in the line, so the run of white space in front of it is over
    obtain ⟨c, val, rfl⟩ := List.exists_cons_of_ne_nil hnot.1
    have hnil : ws₄ = [] := by
      cases ws₄ with
      | nil => rfl
      | cons d ws₄ =>
          obtain ⟨rfl, -⟩ := List.cons.inj heq
          have hspace := hws₄ c List.mem_cons_self
          rw [hval.start c rfl] at hspace
          exact Bool.noConfusion hspace
    rw [hnil, List.nil_append] at heq
    have hmem := mem_of_open hval.plain hshort heq hstop
    have hitem := (parseLoop_extends _ _ _ _ hrun).subset
      (List.mem_append_right its (List.mem_singleton_self _))
    have hno := hvals _ hitem
    rw [ConfItem.pair_filled] at hno
    exact hno hmem
  · rw [if_neg hroom] at hrun
    exact nomatch hrun

end Scope

/-! ## Lines that show the difference -/

/-- `A=[v]`. -/
def probe (v : List Byte) : List Byte := 65 :: 61 :: 91 :: (v ++ [93])

/-- `=[]`, an item without a name. -/
def nameless : List Byte := [61, 91, 93]

theorem ValueRun.nil : ValueRun [] := ⟨nofun, nofun, by decide⟩

/-- A value of one letter. -/
theorem ValueRun.letter : ValueRun [98] :=
  ⟨List.forall_mem_singleton.mpr (by decide), fun b h => by cases h; rfl, by decide⟩

theorem probe_isItem {v : List Byte} (hv : ValueRun v) : IsItem (probe v) ([65], v) := by
  show IsItem ([] ++ ([65] ++ ([] ++ 61 :: ([] ++ 91 :: ([] ++ (v ++ 93 :: [])))))) ([65], v)
  exact .mk ⟨.nil, List.forall_mem_singleton.mpr rfl, by decide, .nil, fun _ => rfl⟩ (by decide) .nil
    .nil hv .nil

theorem nameless_head : Head nameless (some ([], [])) := by
  show Head ([] ++ ([] ++ ([] ++ 61 :: ([] ++ 91 :: ([] ++ ([] ++ [93])))))) (some ([], []))
  exact .item ⟨.nil, List.forall_mem_nil _, by decide, .nil, fun _ => rfl⟩ .nil .nil .nil
    (Or.inl rfl)

theorem nameless_recoversWith : RecoversWith nameless [([], [])] :=
  ⟨[], _, _, .nil, .item nameless_head, rfl⟩

section Crossing

variable {past : Nat → Byte} {stack : Nat → ConfItem} {l r m : List Byte} {ps qs : List Pair}

/-- The two lines, if the last pass of the first one does not end in it. -/
theorem Chain.takes_eq (hchain : Chain l ps r)
    (hreach : Reaches past stack ⟨r ++ 10 :: (m ++ [10]), 0⟩ qs ⟨[], 0⟩)
    (hlen : (ps ++ qs).length ≤ 64) : takes past stack [l, m] = some (ps ++ qs) := by
  have hall : Reaches past stack (.ofFile (ofLines [l, m])) (ps ++ qs) ⟨[], 0⟩ := by
    rw [ofLines_cons, ofLines_cons]
    exact (hchain.reaches _ 0).trans hreach
  rw [hall.takes_eq, if_pos hlen]

theorem Chain.inScope (hchain : Chain l ps r) (hl : 10 ∉ l) (hqs : ∀ q ∈ qs, 10 ∉ q.2)
    (htakes : takes past stack [l, m] = some (ps ++ qs)) : InScope past stack [l, m] := by
  refine ⟨ps ++ qs, htakes, fun p hp => ?_⟩
  rcases List.mem_append.mp hp with hp | hp
  · exact fun hmem => hl (hchain.val_subset p hp hmem)
  · exact hqs p hp

/-- Removing the first of two lines. -/
theorem Removable.last_eq {qs : List Pair} {p : Pair} (h : Removable past stack [] l [m])
    (hm : takes past stack [m] = some [p]) (hlm : takes past stack [l, m] = some qs) :
    ∃ own, qs = own ++ [p] := by
  obtain ⟨before, own, behind, hbefore, -, hwith, hwithout⟩ := h
  obtain rfl := List.forall₂_nil_left_iff.mp hbefore
  rw [List.flatten_nil, List.nil_append] at hwith hwithout
  rw [List.nil_append, hm] at hwithout
  rw [List.nil_append, hlm, ← Option.some.inj hwithout] at hwith
  exact ⟨own, Option.some.inj hwith⟩

theorem takes_singleton {p : Pair} (hm : 10 ∉ m) (h : RecoversWith m [p]) :
    takes past stack [m] = some [p] := by
  have htakes := takes_lines past stack (.cons h .nil) (List.forall_mem_singleton.mpr hm)
  rwa [List.flatten_cons, List.flatten_nil, List.append_nil, if_pos] at htakes
  rw [List.length_singleton]
  decide

theorem sound_singleton (hm : 10 ∉ m) (h : Recovers m) : Sound [m] := by
  intro n hn
  obtain rfl := List.mem_singleton.mp hn
  exact ⟨hm, fun _ => h⟩

theorem not_mem_probe {v : List Byte} (hv : 10 ∉ v) : 10 ∉ probe v := by
  simp only [probe, List.mem_cons, List.mem_append, List.not_mem_nil, or_false]
  rintro (h | h | h | h | h)
  · exact absurd h (by decide)
  · exact absurd h (by decide)
  · exact absurd h (by decide)
  · exact hv h
  · exact absurd h (by decide)

/-- Lines whose last pass skips the next line. -/
theorem not_removable_of_skip (hl : 10 ∉ l) (hchain : Chain l ps r) (hps : ps.length ≤ 64)
    (hskip : ∀ v, 10 ∉ v →
      Reaches past stack ⟨r ++ 10 :: (probe v ++ [10]), 0⟩ [] ⟨[], 0⟩)
    (h : ∀ pre post, Sound pre → Sound post → InScope past stack (pre ++ l :: post) →
      Removable past stack pre l post) : False := by
  have hlast : ∀ v, ValueRun v → 10 ∉ v → ∃ own, ps = own ++ [([65], v)] := by
    intro v hv hv10
    have hm := not_mem_probe hv10
    have hrecovers := (probe_isItem hv).recoversWith
    have htakes : takes past stack [l, probe v] = some (ps ++ []) :=
      hchain.takes_eq (hskip v hv10) (by rwa [List.append_nil])
    have hscope := hchain.inScope hl (fun q hq => absurd hq List.not_mem_nil) htakes
    rw [List.append_nil] at htakes
    exact (h [] [probe v] nofun (sound_singleton hm ⟨_, hrecovers⟩) hscope).last_eq
      (takes_singleton hm hrecovers) htakes
  obtain ⟨own, hown⟩ := hlast [] .nil nofun
  obtain ⟨own', hown'⟩ := hlast [98] .letter (by decide)
  have heq := List.append_inj_right' (hown.symm.trans hown') rfl
  exact absurd heq (by decide)

/-- Lines whose last pass takes an item from the next line. -/
theorem not_removable_of_item {p q : Pair} (hl : 10 ∉ l) (hchain : Chain l ps r)
    (hps : ps.length + 1 ≤ 64) (hm : 10 ∉ m) (hrecovers : RecoversWith m [q])
    (hreach : Reaches past stack ⟨r ++ 10 :: (m ++ [10]), 0⟩ [p] ⟨[], 0⟩)
    (hp : 10 ∉ p.2) (hne : p ≠ q)
    (h : ∀ pre post, Sound pre → Sound post → InScope past stack (pre ++ l :: post) →
      Removable past stack pre l post) : False := by
  have htakes : takes past stack [l, m] = some (ps ++ [p]) :=
    hchain.takes_eq hreach (by rwa [List.length_append, List.length_singleton])
  have hscope := hchain.inScope hl (by
    intro q hq
    rwa [List.mem_singleton.mp hq]) htakes
  obtain ⟨own, hown⟩ := (h [] [m] nofun (sound_singleton hm ⟨_, hrecovers⟩) hscope).last_eq
    (takes_singleton hm hrecovers) htakes
  exact hne (List.cons.inj (List.append_inj_right' hown rfl)).1

end Crossing

theorem Spaces.newline {ws : List Byte} (h : Spaces ws) : Spaces (ws ++ [10]) := by
  intro b hb
  rcases List.mem_append.mp hb with hb | hb
  · exact h b hb
  · obtain rfl := List.mem_singleton.mp hb
    rfl

/-- A line that occurs in a file in question can be removed from every file whose other
malformed lines are recovered from, exactly if it is recovered from itself. -/
theorem removable_iff (past : Nat → Byte) (stack : Nat → ConfItem) (l : List Byte) (hl : 10 ∉ l)
    (hscope : ∃ pre post, Sound pre ∧ Sound post ∧ InScope past stack (pre ++ l :: post)) :
    (∀ pre post, Sound pre → Sound post → InScope past stack (pre ++ l :: post) →
      Removable past stack pre l post) ↔ Recovers l := by
  refine ⟨fun h => ?_, fun h pre post hpre hpost hin => h.removable hl hpre hpost hin⟩
  obtain ⟨ps, r, hchain, ⟨rs, hends⟩ | hstuck⟩ := chain_total l
  · exact ⟨_, ps, r, rs, hchain, hends, rfl⟩
  · obtain ⟨pre, post, hpre, -, hin⟩ := hscope
    obtain ⟨-, its, -, hle, hits, -⟩ := hin.last_pass hpre hchain
    have hps : ps.length ≤ 64 := hle.trans hits
    have htext : ∀ v : List Byte, 10 ∉ v → 10 ∉ 61 :: 91 :: (v ++ [93]) := fun v hv hmem =>
      not_mem_probe hv (List.mem_cons_of_mem 65 hmem)
    cases hstuck with
    | blank hws => exact ⟨_, ps, _, [], hchain, .blank hws, rfl⟩
    | @name ws name ws' hopen hne =>
        -- the name of the next line stands where the `=` should be
        refine (not_removable_of_skip hl hchain hps (fun v hv => ?_) h).elim
        have hhead : Head (ws ++ (name ++ ((ws' ++ [10]) ++ [65]))) none :=
          .noEquals ⟨hopen.before, hopen.key, hopen.length_le, hopen.behind.newline,
            fun hnil => absurd hnil hne⟩ rfl (by decide) (fun hnil => absurd hnil hne)
            fun _ hnil => absurd hnil (List.append_ne_nil_of_right_ne_nil _ (by decide))
        have hreach : Reaches past stack _ [] ⟨[], 0⟩ := hhead.reaches_none (htext v hv) [] 0
        simpa only [probe, List.append_assoc, List.cons_append, List.nil_append] using hreach
    | @equals ws name ws' ws'' hopen hws'' =>
        -- the name of the next line stands where the `[` should be
        refine (not_removable_of_skip hl hchain hps (fun v hv => ?_) h).elim
        have hhead : Head (ws ++ (name ++ (ws' ++ 61 :: ((ws'' ++ [10]) ++ [65])))) none :=
          .noBracket hopen hws''.newline rfl (by decide)
        have hreach : Reaches past stack _ [] ⟨[], 0⟩ := hhead.reaches_none (htext v hv) [] 0
        simpa only [probe, List.append_assoc, List.cons_append, List.nil_append] using hreach
    | @value ws name ws' ws'' gap val hopen hws'' hgap hval =>
        obtain ⟨hroom, rfl | hfull⟩ := hin.value hpre hopen hws'' hgap hval hchain
        · -- the next line is the value
          have hhead : Head (ws ++ (name ++ (ws' ++ 61 :: (ws'' ++ 91 :: ((gap ++ [10]) ++
              ([65, 61, 91] ++ [93])))))) (some (name, [65, 61, 91])) :=
            .item hopen hws'' hgap.newline ⟨List.forall_mem_cons.mpr ⟨by decide,
              List.forall_mem_cons.mpr ⟨by decide, List.forall_mem_singleton.mpr (by decide)⟩⟩,
              fun b h => by cases h; rfl, by decide⟩ (Or.inl rfl)
          have hreach : Reaches past stack _ [(name, [65, 61, 91])] ⟨[], 0⟩ :=
            hhead.reaches_some [10] 0
          have h10 : 10 ∉ (name, ([65, 61, 91] : List Byte)).2 := by
            show (10 : Byte) ∉ [65, 61, 91]
            decide
          exfalso
          refine not_removable_of_item hl hchain hroom (not_mem_probe List.not_mem_nil)
            (probe_isItem .nil).recoversWith ?_ h10 ?_ h
          · simpa only [probe, List.append_assoc, List.cons_append, List.nil_append,
              List.append_nil] using hreach
          · intro heq
            have hval : [65, 61, 91] = ([] : List Byte) := congrArg Prod.snd heq
            exact absurd hval (by decide)
        · -- the end of the line closes the value, and the next line loses its first byte
          have hhead : Head (ws ++ (name ++ (ws' ++ 61 :: (ws'' ++ 91 :: (gap ++
              (val ++ [10])))))) (some (name, val)) :=
            .item hopen hws'' hgap hval (Or.inr hfull)
          have hrest : Head ([] ++ ([] ++ ([] ++ [91]))) none :=
            .noEquals ⟨.nil, List.forall_mem_nil _, by decide, .nil, fun _ => rfl⟩ rfl (by decide)
              (fun _ => by decide) fun _ _ => rfl
          have h93 : (10 : Byte) ∉ [93] := by decide
          have hbracket : Reaches past stack (Cursor.mk (nameless ++ [10]) 0).advance []
              ⟨[], 0⟩ := hrest.reaches_none h93 [] 0
          have hreach : Reaches past stack _ [(name, val)] ⟨[], 0⟩ :=
            (hhead.reaches_some (nameless ++ [10]) 0).trans hbracket
          have hval10 : 10 ∉ (name, val).2 := by
            intro hmem
            apply hl
            apply hchain.subset
            simp only [List.mem_append, List.mem_cons]
            tauto
          exfalso
          refine not_removable_of_item hl hchain hroom (by decide) nameless_recoversWith ?_
            hval10 ?_ h
          · simpa only [List.append_assoc, List.cons_append, List.nil_append] using hreach
          · intro heq
            have hnil : val = [] := congrArg Prod.snd heq
            rw [hnil] at hfull
            exact absurd hfull (by decide)

/-! ## Two lines -/

/-- `F B`. -/
def twoWords : List Byte := [70, 32, 66]

theorem twoWords_recovers : Recovers twoWords := by
  have hhead : Head ([] ++ ([70] ++ ([32] ++ [66]))) none :=
    .noEquals ⟨.nil, List.forall_mem_singleton.mpr rfl, by decide,
      List.forall_mem_singleton.mpr rfl, fun h => absurd h (List.cons_ne_nil _ _)⟩ rfl (by decide)
      (fun h => absurd h (List.cons_ne_nil _ _)) fun _ h => absurd h (List.cons_ne_nil _ _)
  have hends : Ends ([] ++ ([70] ++ ([32] ++ [66])) ++ []) [] := .skipped hhead
  exact ⟨[], [], _, [], .nil, hends, rfl⟩

theorem twoWords_removable :
    Removable (fun _ => 0) (fun _ => emptyItem) [] twoWords [probe [98]] := by
  have hitem : RecoversWith (probe [98]) [([65], [98])] := (probe_isItem .letter).recoversWith
  have hscope : InScope (fun _ => 0) (fun _ => emptyItem) ([] ++ twoWords :: [probe [98]]) :=
    ⟨[([65], [98])], by decide, by decide⟩
  have hsound := sound_singleton (by decide) ⟨_, hitem⟩
  exact (removable_iff (fun _ => 0) (fun _ => emptyItem) twoWords (by decide)
    ⟨[], [probe [98]], nofun, hsound, hscope⟩).mpr twoWords_recovers [] [probe [98]] nofun hsound
    hscope

/-- `F`. -/
def oneWord : List Byte := [70]

/-- The scanner looks for the `=` of a word on the next line, and skips that one. -/
theorem oneWord_not_removable :
    Malformed oneWord ∧
      InScope (fun _ => 0) (fun _ => emptyItem) ([] ++ oneWord :: [probe [98]]) ∧
      ¬Removable (fun _ => 0) (fun _ => emptyItem) [] oneWord [probe [98]] := by
  have htakes : takes (fun _ => 0) (fun _ => emptyItem) [oneWord, probe [98]] = some [] := by
    decide
  refine ⟨⟨?_, ?_⟩, ⟨[], htakes, nofun⟩, fun h => ?_⟩
  · rintro ⟨ws, text, -, heq⟩
    have hmem : (35 : Byte) ∈ oneWord := by
      rw [heq]
      exact List.mem_append_right ws List.mem_cons_self
    exact absurd hmem (by decide)
  · rintro p hitem
    exact absurd hitem.equals_mem (by decide)
  · obtain ⟨own, hown⟩ := h.last_eq (p := ([65], [98])) (by decide) htakes
    exact List.append_ne_nil_of_right_ne_nil own (List.cons_ne_nil _ _) hown.symm

end ClayFigure
