/-
# What the configuration scanner takes

The bytes that one pass of `parse_config` takes before it skips a line or stores an item, as a
grammar of their own: any bytes are such a head with something behind it, or a head that is not
finished. On a head the scanner never looks behind it, so what it does there depends on nothing
else in the file.
-/

import Mathlib.Data.List.TakeWhile
import ClayFigure.Kernel.Config

namespace ClayFigure

/-- The name and the value of an item. -/
abbrev Pair : Type := List Byte × List Byte

/-- The part of the arrays that is in use. -/
def ConfItem.pair (item : ConfItem) : Pair :=
  (item.name.take item.nameLen, item.val.take item.valLen)

/-- `item` once a name and a value are stored in it. -/
def ConfItem.filled (item : ConfItem) (p : Pair) : ConfItem where
  name := fillArray item.name p.1
  nameLen := p.1.length
  val := fillArray item.val p.2
  valLen := p.2.length

theorem take_fillArray (array s : List Byte) : (fillArray array s).take s.length = s := by
  rw [fillArray, cstr, List.append_assoc, List.take_left]

theorem ConfItem.pair_filled (item : ConfItem) (p : Pair) : (item.filled p).pair = p :=
  Prod.ext (take_fillArray _ _) (take_fillArray _ _)

/-! ## Heads -/

/-- White space. -/
def Spaces (ws : List Byte) : Prop := ∀ b ∈ ws, isSpace b = true

theorem Spaces.nil : Spaces [] := List.forall_mem_nil _

/-- White space, a name and white space, as the scanner takes them. The name may be of no byte
at all, and then no white space is left behind it. -/
structure Opening (ws name ws' : List Byte) : Prop where
  before : Spaces ws
  key : ∀ b ∈ name, isKeyName b = true
  length_le : name.length ≤ 63
  behind : Spaces ws'
  empty : name = [] → ws' = []

/-- A value as the scanner takes it. -/
structure ValueRun (val : List Byte) : Prop where
  plain : ∀ b ∈ val, b ≠ 93
  start : ∀ b, val.head? = some b → isSpace b = false
  length_le : val.length ≤ 63

/-- The bytes of a pass up to where it knows that it skips a line, or up to the byte that ends
the value of its item. -/
inductive Head : List Byte → Option Pair → Prop
  | comment {ws : List Byte} (hws : Spaces ws) : Head (ws ++ [35]) none
  | noEquals {ws name ws' : List Byte} {b : Byte} (hopen : Opening ws name ws')
      (hb : isSpace b = false) (hequals : b ≠ 61) (hcomment : name = [] → b ≠ 35)
      (hend : name.length < 63 → ws' = [] → isKeyName b = false) :
      Head (ws ++ (name ++ (ws' ++ [b]))) none
  | noBracket {ws name ws' ws'' : List Byte} {b : Byte} (hopen : Opening ws name ws')
      (hws'' : Spaces ws'') (hb : isSpace b = false) (hbracket : b ≠ 91) :
      Head (ws ++ (name ++ (ws' ++ 61 :: (ws'' ++ [b])))) none
  | item {ws name ws' ws'' gap val : List Byte} {b : Byte} (hopen : Opening ws name ws')
      (hws'' : Spaces ws'') (hgap : Spaces gap) (hval : ValueRun val)
      (hb : b = 93 ∨ val.length = 63) :
      Head (ws ++ (name ++ (ws' ++ 61 :: (ws'' ++ 91 :: (gap ++ (val ++ [b]))))))
        (some (name, val))

/-- A head that is not finished. -/
inductive Unfinished : List Byte → Prop
  | blank {ws : List Byte} (hws : Spaces ws) : Unfinished ws
  | name {ws name ws' : List Byte} (hopen : Opening ws name ws') (hne : name ≠ []) :
      Unfinished (ws ++ (name ++ ws'))
  | equals {ws name ws' ws'' : List Byte} (hopen : Opening ws name ws') (hws'' : Spaces ws'') :
      Unfinished (ws ++ (name ++ (ws' ++ 61 :: ws'')))
  | value {ws name ws' ws'' gap val : List Byte} (hopen : Opening ws name ws')
      (hws'' : Spaces ws'') (hgap : Spaces gap) (hval : ValueRun val) :
      Unfinished (ws ++ (name ++ (ws' ++ 61 :: (ws'' ++ 91 :: (gap ++ val)))))

/-! ## Runs of bytes -/

section Runs

variable {p : Byte → Bool}

/-- A skipping loop: a run, and the first byte that is not of it. -/
theorem exists_run (p : Byte → Bool) (left : List Byte) :
    ∃ run rest, left = run ++ rest ∧ (∀ b ∈ run, p b = true) ∧
      ∀ b, rest.head? = some b → p b = false := by
  refine ⟨left.takeWhile p, left.dropWhile p, (List.takeWhile_append_dropWhile).symm,
    fun b hb => List.mem_takeWhile_imp hb, fun b hb => ?_⟩
  have h := List.head?_dropWhile_not p left
  rw [hb] at h
  exact h

/-- A copying loop: a run of at most 63 bytes, and a byte that is not of it unless the run has
63. -/
theorem exists_run_le (p : Byte → Bool) (left : List Byte) :
    ∃ run rest, left = run ++ rest ∧ (∀ b ∈ run, p b = true) ∧ run.length ≤ 63 ∧
      ∀ b, rest.head? = some b → run.length < 63 → p b = false := by
  obtain ⟨run, rest, rfl, hrun, hrest⟩ := exists_run p left
  by_cases hlen : run.length ≤ 63
  · exact ⟨run, rest, rfl, hrun, hlen, fun b hb _ => hrest b hb⟩
  · refine ⟨run.take 63, run.drop 63 ++ rest, ?_, fun b hb => hrun b (List.mem_of_mem_take hb),
      ?_, ?_⟩
    · rw [← List.append_assoc, List.take_append_drop]
    · exact (List.length_take_le _ _)
    · intro b _ hshort
      rw [List.length_take] at hshort
      omega

end Runs

/-- Any bytes are a head with something behind it, or an unfinished one. -/
theorem head_or_unfinished (left : List Byte) :
    (∃ head p rest, left = head ++ rest ∧ Head head p) ∨ Unfinished left := by
  obtain ⟨ws, left, rfl, hws, hleft⟩ := exists_run isSpace left
  obtain ⟨name, left, rfl, hkey, hlen, hname⟩ := exists_run_le isKeyName left
  obtain ⟨ws', left, rfl, hws', hleft'⟩ := exists_run isSpace left
  have hopen : Opening ws name ws' := by
    refine ⟨hws, hkey, hlen, hws', ?_⟩
    rintro rfl
    cases ws' with
    | nil => rfl
    | cons b ws' =>
        have hspace := hws' b List.mem_cons_self
        rw [hleft b rfl] at hspace
        exact Bool.noConfusion hspace
  cases left with
  | nil =>
      right
      by_cases hne : name = []
      · rw [hne, hopen.empty hne]
        simpa only [List.append_nil] using Unfinished.blank hws
      · rw [List.append_nil]
        exact .name hopen hne
  | cons b left =>
      have hb : isSpace b = false := hleft' b rfl
      by_cases hequals : b = 61
      · -- behind the `=`
        subst hequals
        obtain ⟨ws'', left, rfl, hws'', hleft''⟩ := exists_run isSpace left
        cases left with
        | nil =>
            rw [List.append_nil]
            exact Or.inr (.equals hopen hws'')
        | cons c left =>
            by_cases hbracket : c = 91
            · -- behind the `[`
              subst hbracket
              obtain ⟨gap, left, rfl, hgap, hbehind⟩ := exists_run isSpace left
              obtain ⟨val, left, rfl, hplain, hvallen, hval⟩ :=
                exists_run_le (fun b => decide (b ≠ 93)) left
              have hrun : ValueRun val := by
                refine ⟨fun b hb => of_decide_eq_true (hplain b hb), fun b hb => ?_, hvallen⟩
                apply hbehind b
                rw [List.head?_append, hb]
                rfl
              cases left with
              | nil =>
                  rw [List.append_nil]
                  exact Or.inr (.value hopen hws'' hgap hrun)
              | cons d left =>
                  have hd : d = 93 ∨ val.length = 63 := by
                    by_cases hfull : val.length < 63
                    · exact Or.inl (not_not.mp (of_decide_eq_false (hval d rfl hfull)))
                    · exact Or.inr (le_antisymm hvallen (not_lt.mp hfull))
                  refine Or.inl ⟨_, _, left, ?_, .item hopen hws'' hgap hrun hd⟩
                  simp only [List.append_assoc, List.cons_append, List.nil_append]
            · refine Or.inl ⟨_, _, left, ?_, .noBracket hopen hws'' (hleft'' c rfl) hbracket⟩
              simp only [List.append_assoc, List.cons_append, List.nil_append]
      · by_cases hcomment : name = [] ∧ b = 35
        · obtain ⟨rfl, rfl⟩ := hcomment
          refine Or.inl ⟨_, _, left, ?_, .comment hws⟩
          rw [hopen.empty rfl]
          simp only [List.append_assoc, List.cons_append, List.nil_append]
        · refine Or.inl ⟨_, _, left, ?_, .noEquals hopen hb hequals
            (fun hnil hhash => hcomment ⟨hnil, hhash⟩) fun hshort hnil => ?_⟩
          · simp only [List.append_assoc, List.cons_append, List.nil_append]
          · apply hname b _ hshort
            rw [hnil]
            rfl

/-! ## A pass over a head -/

namespace Cursor

variable {p : Byte → Bool} {s ws : List Byte} {b : Byte}

/-- A copying loop takes a run that a refused byte, its length or the end of the file ends. -/
theorem taken_run (hs : ∀ a ∈ s, p a = true) (hlen : s.length ≤ 63) {rest : List Byte}
    (hstop : ∀ b, rest.head? = some b → s.length < 63 → p b = false) (behind : Nat) :
    (Cursor.mk (s ++ rest) behind).taken p = s := by
  rw [taken, ← List.take_takeWhile, List.takeWhile_append_of_pos hs]
  by_cases hfull : s.length = 63
  · rw [← hfull, List.take_left]
  · have hnil : rest.takeWhile p = [] := by
      cases rest with
      | nil => rfl
      | cons b rest =>
          exact List.takeWhile_cons_of_neg
            (Bool.eq_false_iff.mp (hstop b rfl (lt_of_le_of_ne hlen hfull)))
    rw [hnil, List.append_nil, List.take_of_length_le hlen]

theorem skipSpace_run (hws : Spaces ws) (hb : isSpace b = false) (rest : List Byte)
    (behind : Nat) : (Cursor.mk (ws ++ b :: rest) behind).skipSpace = ⟨b :: rest, behind⟩ := by
  rw [skipSpace_append hws, skipSpace_cons hb]

end Cursor

section Items

variable {ws name ws' ws'' gap val : List Byte} {b : Byte}

/-- A pass starts at a byte that is no white space, and at the `#` of a comment only if there
is no name. -/
theorem Opening.start (h : Opening ws name ws') (hb : isSpace b = false) (rest : List Byte) :
    ∃ c left, name ++ (ws' ++ b :: rest) = c :: left ∧ isSpace c = false ∧
      (c = 35 → name = [] ∧ b = 35) := by
  cases name with
  | nil =>
      rw [h.empty rfl]
      exact ⟨b, rest, rfl, hb, fun hhash => ⟨rfl, hhash⟩⟩
  | cons a name =>
      have hkey := h.key a List.mem_cons_self
      refine ⟨a, name ++ (ws' ++ b :: rest), rfl, not_isSpace_of_isKeyName hkey, ?_⟩
      rintro rfl
      exact absurd hkey (by decide)

/-- The name of an item and the white space around it. -/
theorem Opening.name_eq (h : Opening ws name ws') (hb : isSpace b = false)
    (hend : name.length < 63 → ws' = [] → isKeyName b = false) (rest : List Byte)
    (behind : Nat) :
    (Cursor.mk (name ++ (ws' ++ b :: rest)) behind).skipSpace =
        ⟨name ++ (ws' ++ b :: rest), behind⟩ ∧
      (Cursor.mk (name ++ (ws' ++ b :: rest)) behind).taken isKeyName = name ∧
      ((Cursor.mk (name ++ (ws' ++ b :: rest)) behind).skip name.length).skipSpace =
        ⟨b :: rest, behind⟩ := by
  obtain ⟨c, left, hstart, hc, -⟩ := h.start hb rest
  refine ⟨?_, Cursor.taken_run h.key h.length_le ?_ behind, ?_⟩
  · rw [hstart, Cursor.skipSpace_cons hc]
  · intro d hd hshort
    cases hws' : ws' with
    | nil =>
        rw [hws'] at hd
        obtain rfl : b = d := Option.some.inj hd
        exact hend hshort hws'
    | cons e ws' =>
        rw [hws'] at hd
        obtain rfl : e = d := Option.some.inj hd
        have hspace := h.behind e (by rw [hws']; exact List.mem_cons_self)
        by_contra hkey
        rw [not_isSpace_of_isKeyName (Bool.of_not_eq_false hkey)] at hspace
        exact Bool.noConfusion hspace
  · rw [Cursor.skip_eq, Cursor.skipSpace_run h.behind hb]

theorem readItem_noEquals (past : Nat → Byte) (item : ConfItem) (h : Opening ws name ws')
    (hb : isSpace b = false) (hequals : b ≠ 61)
    (hend : name.length < 63 → ws' = [] → isKeyName b = false) (rest : List Byte)
    (behind : Nat) : ∃ item', readItem past ⟨name ++ (ws' ++ b :: rest), behind⟩ item =
      (.kError, ⟨rest, behind⟩, item') := by
  obtain ⟨hstart, htaken, hskip⟩ := h.name_eq hb hend rest behind
  simp only [readItem, hstart, htaken, hskip, Cursor.deref, Cursor.advance, ne_eq, hequals,
    not_false_eq_true, if_true]
  exact ⟨_, rfl⟩

theorem readItem_noBracket (past : Nat → Byte) (item : ConfItem) (h : Opening ws name ws')
    (hws'' : Spaces ws'') (hb : isSpace b = false) (hbracket : b ≠ 91) (rest : List Byte)
    (behind : Nat) :
    ∃ item', readItem past ⟨name ++ (ws' ++ 61 :: (ws'' ++ b :: rest)), behind⟩ item =
      (.kError, ⟨rest, behind⟩, item') := by
  obtain ⟨hstart, htaken, hskip⟩ := h.name_eq (b := 61) rfl (fun _ _ => rfl)
    (ws'' ++ b :: rest) behind
  have hbehind := Cursor.skipSpace_run hws'' hb rest behind
  simp only [readItem, hstart, htaken, hskip, Cursor.deref, Cursor.advance, hbehind, ne_eq,
    not_true_eq_false, if_false, hbracket, not_false_eq_true, if_true]
  exact ⟨_, rfl⟩

/-- An item is read wherever its value ends: at a `]`, at its length or at the end of the
file. -/
theorem readItem_value (past : Nat → Byte) (item : ConfItem) (h : Opening ws name ws')
    (hws'' : Spaces ws'') (hgap : Spaces gap) (hval : ValueRun val) {rest : List Byte}
    (hend : ∀ b, rest.head? = some b → val.length < 63 → b = 93) (behind : Nat) :
    readItem past ⟨name ++ (ws' ++ 61 :: (ws'' ++ 91 :: (gap ++ (val ++ rest)))), behind⟩
        item =
      (.kSuccess, (Cursor.mk rest behind).advance, item.filled (name, val)) := by
  obtain ⟨hstart, htaken, hskip⟩ := h.name_eq (b := 61) rfl (fun _ _ => rfl)
    (ws'' ++ 91 :: (gap ++ (val ++ rest))) behind
  have hbehind := Cursor.skipSpace_run (b := 91) hws'' rfl (gap ++ (val ++ rest)) behind
  have hvalue : (Cursor.mk (gap ++ (val ++ rest)) behind).skipSpace =
      ⟨val ++ rest, behind⟩ := by
    rw [Cursor.skipSpace_append hgap]
    cases hbytes : val ++ rest with
    | nil => rfl
    | cons c bytes =>
        apply Cursor.skipSpace_cons
        cases val with
        | nil =>
            rw [List.nil_append] at hbytes
            rw [hend c (by rw [hbytes]; rfl) (by decide)]
            rfl
        | cons d val =>
            obtain ⟨rfl, -⟩ := List.cons.inj hbytes
            exact hval.start d rfl
  have hplain : ∀ a ∈ val, decide (a ≠ 93) = true := fun a ha => decide_eq_true (hval.plain a ha)
  have hcopy := Cursor.taken_run (p := fun b => decide (b ≠ 93)) hplain hval.length_le
    (fun c hc hshort => decide_eq_false (not_not.mpr (hend c hc hshort))) behind
  have hrest := Cursor.skip_eq val rest behind
  simp only [readItem, hstart, htaken, hskip, Cursor.deref, Cursor.advance, hbehind, hvalue,
    hcopy, hrest]
  rw [if_neg fun hne => hne rfl, if_neg fun hne => hne rfl]
  rfl

end Items

/-! ## The loop over heads -/

theorem Head.length_pos {head : List Byte} {p : Option Pair} (h : Head head p) :
    0 < head.length := by
  cases h <;> simp only [List.length_append, List.length_cons] <;> omega

/-- `skip_line` up to the end of a line. -/
theorem skipLine_eq {text : List Byte} (htext : 10 ∉ text) (rest : List Byte) (behind : Nat) :
    (Cursor.mk (text ++ 10 :: rest) behind).skipLine = ⟨10 :: rest, behind⟩ := by
  have hrun : ∀ b ∈ text, decide (b ≠ 10) = true := fun b hb =>
    decide_eq_true fun heq => htext (heq ▸ hb)
  rw [Cursor.skipLine, List.dropWhile_append_of_pos hrun,
    List.dropWhile_cons_of_neg (by decide)]

section Loop

variable {past : Nat → Byte} {stack : Nat → ConfItem} {fuel : Nat} {items : List ConfItem}
  {head : List Byte}

/-- A head without an item: the rest of the line is skipped. -/
theorem Head.parseLoop_none (h : Head head none) (rest : List Byte) (behind : Nat) :
    parseLoop past stack (fuel + 1) ⟨head ++ rest, behind⟩ items =
      parseLoop past stack fuel (Cursor.mk rest behind).skipLine.advance items := by
  cases h with
  | comment hws =>
      rw [List.append_assoc, parseLoop_blank _ hws, List.singleton_append,
        parseLoop_cons (by decide), if_pos rfl]
      rfl
  | @noEquals ws name ws' b hopen hb hequals hcomment hend =>
      obtain ⟨item', hread⟩ := readItem_noEquals past (stack fuel) hopen hb hequals hend rest
        behind
      obtain ⟨c, left, hstart, hc, hhash⟩ := hopen.start hb rest
      simp only [List.append_assoc, List.singleton_append]
      rw [parseLoop_blank _ hopen.before]
      rw [hstart] at hread ⊢
      rw [parseLoop_cons hc, if_neg fun h35 => hcomment (hhash h35).1 (hhash h35).2, hread]
  | @noBracket ws name ws' ws'' b hopen hws'' hb hbracket =>
      obtain ⟨item', hread⟩ := readItem_noBracket past (stack fuel) hopen hws'' hb hbracket rest
        behind
      obtain ⟨c, left, hstart, hc, hhash⟩ := hopen.start (b := 61) rfl (ws'' ++ b :: rest)
      simp only [List.append_assoc, List.cons_append, List.nil_append]
      rw [parseLoop_blank _ hopen.before]
      rw [hstart] at hread ⊢
      rw [parseLoop_cons hc, if_neg fun h35 => absurd (hhash h35).2 (by decide), hread]

/-- A head up to the end of the value of its item, behind which there may be nothing. -/
theorem parseLoop_value {ws name ws' ws'' gap val : List Byte} (hopen : Opening ws name ws')
    (hws'' : Spaces ws'') (hgap : Spaces gap) (hval : ValueRun val) {rest : List Byte}
    (hend : ∀ b, rest.head? = some b → val.length < 63 → b = 93) (behind : Nat) :
    parseLoop past stack (fuel + 1)
        ⟨ws ++ (name ++ (ws' ++ 61 :: (ws'' ++ 91 :: (gap ++ (val ++ rest))))), behind⟩ items =
      if items.length < 64 then
        parseLoop past stack fuel (Cursor.mk rest behind).advance.advance
          (items ++ [(stack fuel).filled (name, val)])
      else none := by
  have hread := readItem_value past (stack fuel) hopen hws'' hgap hval hend behind
  obtain ⟨c, left, hstart, hc, hhash⟩ := hopen.start (b := 61) rfl
    (ws'' ++ 91 :: (gap ++ (val ++ rest)))
  rw [parseLoop_blank _ hopen.before]
  rw [hstart] at hread ⊢
  rw [parseLoop_cons hc, if_neg fun h35 => absurd (hhash h35).2 (by decide), hread]

/-- A head with an item: the item is stored, and one more byte is skipped. -/
theorem Head.parseLoop_some {p : Pair} (h : Head head (some p)) (rest : List Byte)
    (behind : Nat) :
    parseLoop past stack (fuel + 1) ⟨head ++ rest, behind⟩ items =
      if items.length < 64 then
        parseLoop past stack fuel (Cursor.mk rest behind).advance
          (items ++ [(stack fuel).filled p])
      else none := by
  cases h with
  | @item ws name ws' ws'' gap val b hopen hws'' hgap hval hb =>
      have hend : ∀ c, (b :: rest).head? = some c → val.length < 63 → c = 93 := by
        rintro c ⟨⟩ hshort
        exact hb.resolve_right (Nat.ne_of_lt hshort)
      simp only [List.append_assoc, List.cons_append, List.nil_append]
      exact parseLoop_value hopen hws'' hgap hval hend behind

end Loop

end ClayFigure
