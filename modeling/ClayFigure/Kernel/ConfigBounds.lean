/-
# Where the configuration scanner reads and writes

The scanner of `kernel/config.c` once more, with every access checked: a read has to lie in the
file, a store has to lie in its array. Where no check fails the scanner is the one of
`Kernel/Config`, whatever the memory behind the file holds. The checks fail exactly on the files
that end inside of a pass or have more than 64 items.
-/

import ClayFigure.Kernel.ConfigScan

namespace ClayFigure

/-! ## The code, with checked accesses -/

/-- Why a checked run stops. -/
inductive Fault
  | read
  | write
  | fuel
  deriving DecidableEq, Repr

/-- A local `item` of `parse_config`: its two arrays have 64 bytes. -/
structure LocalItem extends ConfItem where
  name_length : name.length = 64
  val_length : val.length = 64

/-- `**src`. -/
def readByteIn : List Byte → Except Fault Byte
  | [] => .error .read
  | b :: _ => .ok b

/-- A store to an element of an array. -/
def storeIn (array : List Byte) (i : Nat) (b : Byte) : Except Fault (List Byte) :=
  if i < array.length then .ok (array.set i b) else .error .write

/-- `skip_space`: the byte is read before the pointer is compared. -/
def skipSpaceIn : List Byte → Except Fault (List Byte)
  | [] => .error .read
  | b :: left => if isSpace b then skipSpaceIn left else .ok (b :: left)

/-- `skip_line`. -/
def skipLineIn : List Byte → Except Fault (List Byte)
  | [] => .error .read
  | b :: left => if b ≠ 10 then skipLineIn left else .ok (b :: left)

/-- A copying loop of `read_item`: the array, its length and the bytes left. -/
def copyWhileIn (p : Byte → Bool) :
    List Byte → List Byte → Nat → Except Fault (List Byte × Nat × List Byte)
  | [], _, _ => .error .read
  | b :: left, array, len =>
      if p b && len < 63 then do copyWhileIn p left (← storeIn array len b) (len + 1)
      else .ok (array, len, b :: left)

/-- `read_item`. -/
def readItemIn (left : List Byte) (item : ConfItem) :
    Except Fault (Status × List Byte × ConfItem) := do
  let left ← skipSpaceIn left
  let (name, nameLen, left) ← copyWhileIn isKeyName left item.name 0
  let name ← storeIn name nameLen 0
  let item := { item with name := name, nameLen := nameLen, valLen := 0 }
  let left ← skipSpaceIn left
  if (← readByteIn left) ≠ 61 then return (.kError, left.tail, item)
  else
    let left ← skipSpaceIn left.tail
    if (← readByteIn left) ≠ 91 then return (.kError, left.tail, item)
    else
      let left ← skipSpaceIn left.tail
      let (val, valLen, left) ← copyWhileIn (· ≠ 93) left item.val 0
      let val ← storeIn val valLen 0
      return (.kSuccess, left.tail, { item with val := val, valLen := valLen })

/-- The loop of `parse_config`. -/
def parseLoopIn (stack : Nat → LocalItem) :
    Nat → List Byte → List ConfItem → Except Fault (List ConfItem)
  | 0, _, _ => .error .fuel
  | fuel + 1, left, items =>
      if left = [] then .ok items
      else do
        let left ← skipSpaceIn left
        if left = [] then return items
        else if (← readByteIn left) = 35 then
          parseLoopIn stack fuel (← skipLineIn left).tail items
        else
          match ← readItemIn left (stack fuel).toConfItem with
          | (.kSuccess, left, item) =>
              if items.length < 64 then parseLoopIn stack fuel left.tail (items ++ [item])
              else .error .write
          | (_, left, _) => parseLoopIn stack fuel (← skipLineIn left).tail items

/-- `parse_config`. -/
def parseConfigIn (stack : Nat → LocalItem) (data : List Byte) :
    Except Fault (List ConfItem) :=
  parseLoopIn stack (data.length + 1) data []

/-! ## The files -/

/-- A file that the scanner takes to its end without a look behind it, with the number of its
items: lines that are skipped have an end, and white space in front of nothing is at most the one
byte that is skipped behind an item. -/
inductive Scans : Nat → List Byte → Prop
  | done : Scans 0 []
  | skip {head text rest : List Byte} {n : Nat} (hhead : Head head none) (htext : 10 ∉ text)
      (hrest : Scans n rest) : Scans n (head ++ (text ++ 10 :: rest))
  | last {head : List Byte} {p : Pair} (hhead : Head head (some p)) : Scans 1 head
  | item {head rest : List Byte} {b : Byte} {p : Pair} {n : Nat} (hhead : Head head (some p))
      (hrest : Scans n rest) : Scans (n + 1) (head ++ b :: rest)

/-! ## The scanners -/

section Scanners

variable {p : Byte → Bool} {ws s rest left left' : List Byte} {b : Byte}

theorem skipSpaceIn_run (hws : Spaces ws) (hb : isSpace b = false) (rest : List Byte) :
    skipSpaceIn (ws ++ b :: rest) = .ok (b :: rest) := by
  induction ws with
  | nil => rw [List.nil_append, skipSpaceIn, if_neg (Bool.eq_false_iff.mp hb)]
  | cons a ws ih =>
      rw [List.cons_append, skipSpaceIn, if_pos (hws a List.mem_cons_self)]
      exact ih fun c hc => hws c (List.mem_cons_of_mem a hc)

theorem skipSpaceIn_blank (hws : Spaces ws) : skipSpaceIn ws = .error .read := by
  induction ws with
  | nil => rfl
  | cons a ws ih =>
      rw [skipSpaceIn, if_pos (hws a List.mem_cons_self)]
      exact ih fun c hc => hws c (List.mem_cons_of_mem a hc)

theorem skipLineIn_run (hs : 10 ∉ s) (rest : List Byte) :
    skipLineIn (s ++ 10 :: rest) = .ok (10 :: rest) := by
  induction s with
  | nil => rfl
  | cons a s ih =>
      have ha : a ≠ 10 := fun heq => hs (by rw [heq]; exact List.mem_cons_self)
      rw [List.cons_append, skipLineIn, if_pos ha]
      exact ih fun hmem => hs (List.mem_cons_of_mem a hmem)

/-- A line that is skipped has an end. -/
theorem skipLineIn_ok (h : skipLineIn left = .ok left') :
    ∃ text rest, left = text ++ 10 :: rest ∧ 10 ∉ text ∧ left' = 10 :: rest := by
  induction left with
  | nil => exact nomatch h
  | cons a left ih =>
      rw [skipLineIn] at h
      by_cases ha : a ≠ 10
      · rw [if_pos ha] at h
        obtain ⟨text, rest, rfl, htext, hleft⟩ := ih h
        exact ⟨a :: text, rest, rfl, List.not_mem_cons_of_ne_of_not_mem (Ne.symm ha) htext,
          hleft⟩
      · rw [if_neg ha] at h
        obtain rfl := not_not.mp ha
        exact ⟨[], left, rfl, List.not_mem_nil, (Except.ok.inj h).symm⟩

/-- A copying loop that a byte ends, from the middle of the array on. -/
theorem copyWhileIn_run_from (hs : ∀ a ∈ s, p a = true) (pre tail : List Byte)
    (hlen : pre.length + s.length ≤ 63) (hroom : pre.length + tail.length = 64)
    (hb : pre.length + s.length < 63 → p b = false) (rest : List Byte) :
    copyWhileIn p (s ++ b :: rest) (pre ++ tail) pre.length =
      .ok (pre ++ (s ++ tail.drop s.length), pre.length + s.length, b :: rest) := by
  induction s generalizing pre tail with
  | nil =>
      have hstop : ¬(p b && decide (pre.length < 63)) = true := by
        rw [Bool.and_eq_true, decide_eq_true_eq]
        rintro ⟨hp, hlt⟩
        rw [hb hlt] at hp
        exact Bool.noConfusion hp
      rw [List.nil_append, copyWhileIn, if_neg hstop]
      rfl
  | cons a s ih =>
      rw [List.length_cons] at hlen hb
      have ha : p a = true := hs a List.mem_cons_self
      have hgo : (p a && decide (pre.length < 63)) = true := by
        rw [ha, Bool.true_and, decide_eq_true_eq]
        omega
      cases tail with
      | nil =>
          rw [List.length_nil] at hroom
          omega
      | cons t tail =>
          rw [List.length_cons] at hroom
          have hset : (pre ++ t :: tail).set pre.length a = (pre ++ [a]) ++ tail := by
            rw [List.set_append_right _ _ (le_refl _), Nat.sub_self, List.set_cons_zero,
              List.append_assoc, List.singleton_append]
          have hin : pre.length < (pre ++ t :: tail).length := by
            rw [List.length_append, List.length_cons]
            omega
          have hpre : (pre ++ [a]).length = pre.length + 1 := List.length_append
          have hrest := ih (fun c hc => hs c (List.mem_cons_of_mem a hc)) (pre ++ [a]) tail
            (by omega) (by omega) (fun hlt => hb (by omega))
          rw [hpre] at hrest
          rw [List.cons_append, copyWhileIn, if_pos hgo, storeIn, if_pos hin, hset]
          simp only [bind, Except.bind]
          rw [hrest, List.append_assoc, List.singleton_append, List.length_cons,
            List.drop_succ_cons, Nat.add_right_comm, Nat.add_assoc]
          rfl

/-- A copying loop that the end of the file ends has looked behind it. -/
theorem copyWhileIn_end (hs : ∀ a ∈ s, p a = true) {array : List Byte} {len : Nat}
    (hlen : len + s.length ≤ 63) (hroom : array.length = 64) :
    copyWhileIn p s array len = .error .read := by
  induction s generalizing array len with
  | nil => rfl
  | cons a s ih =>
      rw [List.length_cons] at hlen
      have hgo : (p a && decide (len < 63)) = true := by
        rw [hs a List.mem_cons_self, Bool.true_and, decide_eq_true_eq]
        omega
      have hin : len < array.length := by omega
      rw [copyWhileIn, if_pos hgo, storeIn, if_pos hin]
      exact ih (fun c hc => hs c (List.mem_cons_of_mem a hc)) (by omega)
        (by rw [List.length_set, hroom])

/-- A copying loop and the NUL behind it. -/
theorem copyWhileIn_run (hs : ∀ a ∈ s, p a = true) (hlen : s.length ≤ 63)
    (hb : s.length < 63 → p b = false) {array : List Byte} (hroom : array.length = 64)
    (rest : List Byte) :
    copyWhileIn p (s ++ b :: rest) array 0 = .ok (s ++ array.drop s.length, s.length, b :: rest) := by
  have h := copyWhileIn_run_from hs [] array (by rwa [List.length_nil, Nat.zero_add])
    (by rwa [List.length_nil, Nat.zero_add]) (by rwa [List.length_nil, Nat.zero_add]) rest
  rwa [List.length_nil, Nat.zero_add, List.nil_append, List.nil_append] at h

theorem storeIn_end (hlen : s.length ≤ 63) {array : List Byte} (hroom : array.length = 64) :
    storeIn (s ++ array.drop s.length) s.length 0 = .ok (fillArray array s) := by
  have hlt : s.length < array.length := by omega
  have hin : s.length < (s ++ array.drop s.length).length := by
    rw [List.length_append, List.length_drop]
    omega
  rw [storeIn, if_pos hin, List.set_append_right _ _ (le_refl _), Nat.sub_self,
    List.drop_eq_getElem_cons hlt, List.set_cons_zero, fillArray, cstr, List.append_assoc,
    List.singleton_append]

end Scanners

/-! ## An item -/

section Items

variable {ws name ws' ws'' gap val : List Byte} {b : Byte}

/-- A pass looks for the byte behind the name. -/
theorem Opening.skipSpaceIn_eq (h : Opening ws name ws') (hb : isSpace b = false)
    (rest : List Byte) :
    skipSpaceIn (name ++ (ws' ++ b :: rest)) = .ok (name ++ (ws' ++ b :: rest)) := by
  obtain ⟨c, left, hstart, hc, -⟩ := h.start hb rest
  rw [hstart, skipSpaceIn, if_neg (Bool.eq_false_iff.mp hc)]

/-- The first byte behind the name is no letter of it, unless the name has 63. -/
theorem Opening.copyWhileIn_name (h : Opening ws name ws')
    (hend : name.length < 63 → ws' = [] → isKeyName b = false) {array : List Byte}
    (hroom : array.length = 64) (rest : List Byte) :
    copyWhileIn isKeyName (name ++ (ws' ++ b :: rest)) array 0 =
      .ok (name ++ array.drop name.length, name.length, ws' ++ b :: rest) := by
  cases hws' : ws' with
  | nil => exact copyWhileIn_run h.key h.length_le (fun hlt => hend hlt hws') hroom rest
  | cons c ws' =>
      have hspace := h.behind c (by rw [hws']; exact List.mem_cons_self)
      have hc : isKeyName c = false := by
        by_contra hkey
        rw [not_isSpace_of_isKeyName (Bool.of_not_eq_false hkey)] at hspace
        exact Bool.noConfusion hspace
      exact copyWhileIn_run h.key h.length_le (fun _ => hc) hroom (ws' ++ b :: rest)

/-- `item` once a name is stored in it. -/
def ConfItem.named (item : ConfItem) (name : List Byte) : ConfItem :=
  { item with name := fillArray item.name name, nameLen := name.length, valLen := 0 }

theorem readItemIn_noEquals (item : LocalItem) (h : Opening ws name ws')
    (hb : isSpace b = false) (hequals : b ≠ 61)
    (hend : name.length < 63 → ws' = [] → isKeyName b = false) (rest : List Byte) :
    readItemIn (name ++ (ws' ++ b :: rest)) item.toConfItem =
      .ok (.kError, rest, item.named name) := by
  rw [readItemIn, h.skipSpaceIn_eq hb]
  simp only [bind, Except.bind, pure, Except.pure, h.copyWhileIn_name hend item.name_length,
    storeIn_end h.length_le item.name_length, skipSpaceIn_run h.behind hb, readByteIn]
  rw [if_pos hequals]
  rfl

theorem readItemIn_noBracket (item : LocalItem) (h : Opening ws name ws')
    (hws'' : Spaces ws'') (hb : isSpace b = false) (hbracket : b ≠ 91) (rest : List Byte) :
    readItemIn (name ++ (ws' ++ 61 :: (ws'' ++ b :: rest))) item.toConfItem =
      .ok (.kError, rest, item.named name) := by
  have hname := h.copyWhileIn_name (b := 61) (fun _ _ => rfl) item.name_length (ws'' ++ b :: rest)
  have hspace := skipSpaceIn_run (b := 61) h.behind rfl (ws'' ++ b :: rest)
  rw [readItemIn, h.skipSpaceIn_eq rfl]
  simp only [bind, Except.bind, pure, Except.pure, hname,
    storeIn_end h.length_le item.name_length, hspace, readByteIn, List.tail_cons,
    skipSpaceIn_run hws'' hb]
  rw [if_neg fun hne => hne rfl, if_pos hbracket]
  rfl

/-- The bytes behind the `[`, up to the first of the value or to its end. -/
theorem ValueRun.skipSpaceIn_eq (hval : ValueRun val) (hgap : Spaces gap)
    (hb : b = 93 ∨ val.length = 63) (rest : List Byte) :
    skipSpaceIn (gap ++ (val ++ b :: rest)) = .ok (val ++ b :: rest) := by
  cases val with
  | nil =>
      obtain rfl := hb.resolve_right (by decide)
      exact skipSpaceIn_run hgap rfl rest
  | cons c val => exact skipSpaceIn_run hgap (hval.start c rfl) (val ++ b :: rest)

theorem readItemIn_item (item : LocalItem) (h : Opening ws name ws') (hws'' : Spaces ws'')
    (hgap : Spaces gap) (hval : ValueRun val) (hb : b = 93 ∨ val.length = 63)
    (rest : List Byte) :
    readItemIn (name ++ (ws' ++ 61 :: (ws'' ++ 91 :: (gap ++ (val ++ b :: rest)))))
        item.toConfItem =
      .ok (.kSuccess, rest, item.filled (name, val)) := by
  have hplain : ∀ a ∈ val, decide (a ≠ 93) = true := fun a ha => decide_eq_true (hval.plain a ha)
  have hcopy := copyWhileIn_run (p := fun b => decide (b ≠ 93)) hplain hval.length_le
    (fun hlt => decide_eq_false (not_not.mpr (hb.resolve_right (Nat.ne_of_lt hlt))))
    item.val_length rest
  have hname := h.copyWhileIn_name (b := 61) (fun _ _ => rfl) item.name_length
    (ws'' ++ 91 :: (gap ++ (val ++ b :: rest)))
  have hspace := skipSpaceIn_run (b := 61) h.behind rfl
    (ws'' ++ 91 :: (gap ++ (val ++ b :: rest)))
  have hspace' := skipSpaceIn_run (b := 91) hws'' rfl (gap ++ (val ++ b :: rest))
  rw [readItemIn, h.skipSpaceIn_eq rfl]
  simp only [bind, Except.bind, pure, Except.pure, hname,
    storeIn_end h.length_le item.name_length, hspace, readByteIn, List.tail_cons, hspace',
    hval.skipSpaceIn_eq hgap hb, hcopy, storeIn_end hval.length_le item.val_length]
  rw [if_neg fun hne => hne rfl, if_neg fun hne => hne rfl]
  rfl

end Items

/-! ## A pass -/

section Passes

variable {stack : Nat → LocalItem} {fuel : Nat} {items : List ConfItem}
  {head ws left : List Byte} {b : Byte}

/-- White space in front of a pass. -/
theorem parseLoopIn_start (hws : Spaces ws) (hb : isSpace b = false) (left : List Byte) :
    parseLoopIn stack (fuel + 1) (ws ++ b :: left) items =
      if b = 35 then
        skipLineIn (b :: left) >>= fun left => parseLoopIn stack fuel left.tail items
      else
        readItemIn (b :: left) (stack fuel).toConfItem >>= fun
          | (.kSuccess, left, item) =>
              if items.length < 64 then parseLoopIn stack fuel left.tail (items ++ [item])
              else .error .write
          | (_, left, _) =>
              skipLineIn left >>= fun left => parseLoopIn stack fuel left.tail items := by
  have hne : ws ++ b :: left ≠ [] := List.append_ne_nil_of_right_ne_nil ws (List.cons_ne_nil b left)
  rw [parseLoopIn, if_neg hne, skipSpaceIn_run hws hb]
  simp only [bind, Except.bind, readByteIn]
  rw [if_neg (List.cons_ne_nil b left)]

/-- A head without an item: the rest of the line has to have an end. -/
theorem Head.parseLoopIn_none (h : Head head none) (rest : List Byte) :
    parseLoopIn stack (fuel + 1) (head ++ rest) items =
      (skipLineIn rest >>= fun left => parseLoopIn stack fuel left.tail items) := by
  cases h with
  | comment hws =>
      rw [List.append_assoc, List.singleton_append, parseLoopIn_start hws (by decide),
        if_pos rfl]
      rfl
  | @noEquals ws name ws' b hopen hb hequals hcomment hend =>
      have hread := readItemIn_noEquals (stack fuel) hopen hb hequals hend rest
      obtain ⟨c, left, hstart, hc, hhash⟩ := hopen.start hb rest
      simp only [List.append_assoc, List.singleton_append]
      rw [hstart] at hread ⊢
      rw [parseLoopIn_start hopen.before hc,
        if_neg fun h35 => hcomment (hhash h35).1 (hhash h35).2, hread]
      rfl
  | @noBracket ws name ws' ws'' b hopen hws'' hb hbracket =>
      have hread := readItemIn_noBracket (stack fuel) hopen hws'' hb hbracket rest
      obtain ⟨c, left, hstart, hc, hhash⟩ := hopen.start (b := 61) rfl (ws'' ++ b :: rest)
      simp only [List.append_assoc, List.cons_append, List.nil_append]
      rw [hstart] at hread ⊢
      rw [parseLoopIn_start hopen.before hc,
        if_neg fun h35 => absurd (hhash h35).2 (by decide), hread]
      rfl

variable (stack fuel items) in
/-- A head with an item. -/
theorem Head.parseLoopIn_some {p : Pair} (h : Head head (some p)) (rest : List Byte) :
    parseLoopIn stack (fuel + 1) (head ++ rest) items =
      if items.length < 64 then
        parseLoopIn stack fuel rest.tail (items ++ [(stack fuel).filled p])
      else .error .write := by
  cases h with
  | @item ws name ws' ws'' gap val b hopen hws'' hgap hval hb =>
      have hread := readItemIn_item (stack fuel) hopen hws'' hgap hval hb rest
      obtain ⟨c, left, hstart, hc, hhash⟩ := hopen.start (b := 61) rfl
        (ws'' ++ 91 :: (gap ++ (val ++ b :: rest)))
      simp only [List.append_assoc, List.cons_append, List.nil_append]
      rw [hstart] at hread ⊢
      rw [parseLoopIn_start hopen.before hc,
        if_neg fun h35 => absurd (hhash h35).2 (by decide), hread]
      rfl

/-- A read behind the file in `read_item` is one of the pass. -/
theorem parseLoopIn_of_readItemIn {e : Fault} (hws : Spaces ws) (hb : isSpace b = false)
    (hcomment : b ≠ 35)
    (hread : readItemIn (b :: left) (stack fuel).toConfItem = .error e) :
    parseLoopIn stack (fuel + 1) (ws ++ b :: left) items = .error e := by
  rw [parseLoopIn_start hws hb, if_neg hcomment, hread]
  rfl

theorem readItemIn_name {name ws' : List Byte} (item : LocalItem) (h : Opening ws name ws')
    (hne : name ≠ []) : readItemIn (name ++ ws') item.toConfItem = .error .read := by
  obtain ⟨c, name', hname⟩ := List.exists_cons_of_ne_nil hne
  have hc : isSpace c = false :=
    not_isSpace_of_isKeyName (h.key c (by rw [hname]; exact List.mem_cons_self))
  have hstart : skipSpaceIn (name ++ ws') = .ok (name ++ ws') := by
    rw [hname, List.cons_append, skipSpaceIn, if_neg (Bool.eq_false_iff.mp hc)]
  rw [readItemIn, hstart]
  simp only [bind, Except.bind]
  cases ws' with
  | nil =>
      have hlen : 0 + name.length ≤ 63 := by
        rw [Nat.zero_add]
        exact h.length_le
      rw [List.append_nil, copyWhileIn_end h.key hlen item.name_length]
  | cons b ws' =>
      have hspace := h.behind b List.mem_cons_self
      have hb : isKeyName b = false := by
        by_contra hkey
        rw [not_isSpace_of_isKeyName (Bool.of_not_eq_false hkey)] at hspace
        exact Bool.noConfusion hspace
      simp only [copyWhileIn_run h.key h.length_le (fun _ => hb) item.name_length,
        storeIn_end h.length_le item.name_length, skipSpaceIn_blank h.behind]

theorem readItemIn_equals {name ws' ws'' : List Byte} (item : LocalItem)
    (h : Opening ws name ws') (hws'' : Spaces ws'') :
    readItemIn (name ++ (ws' ++ 61 :: ws'')) item.toConfItem = .error .read := by
  have hname := h.copyWhileIn_name (b := 61) (fun _ _ => rfl) item.name_length ws''
  have hspace := skipSpaceIn_run (b := 61) h.behind rfl ws''
  rw [readItemIn, h.skipSpaceIn_eq rfl]
  simp only [bind, Except.bind, hname, storeIn_end h.length_le item.name_length, hspace,
    readByteIn, List.tail_cons, skipSpaceIn_blank hws'']
  rw [if_neg fun hne => hne rfl]

theorem readItemIn_value {name ws' ws'' gap val : List Byte} (item : LocalItem)
    (h : Opening ws name ws') (hws'' : Spaces ws'') (hgap : Spaces gap)
    (hval : ValueRun val) :
    readItemIn (name ++ (ws' ++ 61 :: (ws'' ++ 91 :: (gap ++ val)))) item.toConfItem =
      .error .read := by
  have hname := h.copyWhileIn_name (b := 61) (fun _ _ => rfl) item.name_length
    (ws'' ++ 91 :: (gap ++ val))
  have hspace := skipSpaceIn_run (b := 61) h.behind rfl (ws'' ++ 91 :: (gap ++ val))
  have hspace' := skipSpaceIn_run (b := 91) hws'' rfl (gap ++ val)
  rw [readItemIn, h.skipSpaceIn_eq rfl]
  simp only [bind, Except.bind, hname, storeIn_end h.length_le item.name_length, hspace,
    readByteIn, List.tail_cons, hspace']
  rw [if_neg fun hne => hne rfl, if_neg fun hne => hne rfl]
  cases val with
  | nil => rw [List.append_nil, skipSpaceIn_blank hgap]
  | cons c val =>
      have hplain : ∀ a ∈ c :: val, decide (a ≠ 93) = true := fun a ha =>
        decide_eq_true (hval.plain a ha)
      have hlen : 0 + (c :: val).length ≤ 63 := by
        rw [Nat.zero_add]
        exact hval.length_le
      rw [skipSpaceIn_run hgap (hval.start c rfl) val]
      simp only [copyWhileIn_end hplain hlen item.val_length]

/-- An unfinished head is looked behind. -/
theorem Unfinished.parseLoopIn_eq (h : Unfinished left) (hne : left ≠ []) :
    parseLoopIn stack (fuel + 1) left items = .error .read := by
  cases h with
  | blank hws =>
      rw [parseLoopIn, if_neg hne, skipSpaceIn_blank hws]
      rfl
  | @name ws name ws' hopen hname =>
      have hread := readItemIn_name (stack fuel) hopen hname
      obtain ⟨c, name', rfl⟩ := List.exists_cons_of_ne_nil hname
      have hkey := hopen.key c List.mem_cons_self
      refine parseLoopIn_of_readItemIn hopen.before (not_isSpace_of_isKeyName hkey) ?_ hread
      rintro rfl
      exact absurd hkey (by decide)
  | @equals ws name ws' ws'' hopen hws'' =>
      have hread := readItemIn_equals (stack fuel) hopen hws''
      obtain ⟨c, left, hstart, hc, hhash⟩ := hopen.start (b := 61) rfl ws''
      rw [hstart] at hread ⊢
      exact parseLoopIn_of_readItemIn hopen.before hc
        (fun h35 => absurd (hhash h35).2 (by decide)) hread
  | @value ws name ws' ws'' gap val hopen hws'' hgap hval =>
      have hread := readItemIn_value (stack fuel) hopen hws'' hgap hval
      obtain ⟨c, left, hstart, hc, hhash⟩ := hopen.start (b := 61) rfl
        (ws'' ++ 91 :: (gap ++ val))
      rw [hstart] at hread ⊢
      exact parseLoopIn_of_readItemIn hopen.before hc
        (fun h35 => absurd (hhash h35).2 (by decide)) hread

end Passes

/-! ## The loop -/

section Runs

variable {stack : Nat → LocalItem}

/-- A run without a fault has taken a file of the grammar. -/
theorem scans_of_parseLoopIn : ∀ (fuel : Nat) (left : List Byte) (items items' : List ConfItem),
    items.length ≤ 64 → parseLoopIn stack fuel left items = .ok items' →
      ∃ n, Scans n left ∧ items.length + n ≤ 64 := by
  intro fuel
  induction fuel with
  | zero =>
      intro left items items' _ hrun
      exact nomatch hrun
  | succ fuel ih =>
      intro left items items' hitems hrun
      by_cases hnil : left = []
      · exact ⟨0, hnil ▸ .done, hitems⟩
      · rcases head_or_unfinished left with ⟨head, p, rest, rfl, hhead⟩ | hstuck
        · cases p with
          | none =>
              rw [hhead.parseLoopIn_none] at hrun
              cases hskip : skipLineIn rest with
              | error e =>
                  rw [hskip] at hrun
                  exact nomatch hrun
              | ok left =>
                  rw [hskip] at hrun
                  obtain ⟨text, rest, rfl, htext, rfl⟩ := skipLineIn_ok hskip
                  obtain ⟨n, hscans, hn⟩ := ih rest items items' hitems hrun
                  exact ⟨n, .skip hhead htext hscans, hn⟩
          | some p =>
              rw [hhead.parseLoopIn_some] at hrun
              by_cases hroom : items.length < 64
              · rw [if_pos hroom] at hrun
                cases rest with
                | nil =>
                    rw [List.append_nil]
                    exact ⟨1, .last hhead, hroom⟩
                | cons b rest =>
                    obtain ⟨n, hscans, hn⟩ := ih rest _ items' (by
                      rw [List.length_append, List.length_singleton]
                      exact hroom) hrun
                    rw [List.length_append, List.length_singleton] at hn
                    exact ⟨n + 1, .item hhead hscans, by omega⟩
              · rw [if_neg hroom] at hrun
                exact nomatch hrun
        · rw [hstuck.parseLoopIn_eq hnil] at hrun
          exact nomatch hrun

/-- A file of the grammar is taken without a fault. -/
theorem Scans.parseLoopIn_ok {n : Nat} {left : List Byte} (h : Scans n left) :
    ∀ (fuel : Nat) (items : List ConfItem), left.length < fuel → items.length + n ≤ 64 →
      ∃ items', parseLoopIn stack fuel left items = .ok items' := by
  induction h with
  | done =>
      intro fuel items hfuel _
      obtain ⟨fuel, rfl⟩ := Nat.exists_eq_succ_of_ne_zero (Nat.ne_of_gt hfuel)
      exact ⟨items, rfl⟩
  | @skip head text rest n hhead htext hrest ih =>
      intro fuel items hfuel hn
      obtain ⟨fuel, rfl⟩ := Nat.exists_eq_succ_of_ne_zero (Nat.ne_of_gt (Nat.zero_lt_of_lt hfuel))
      simp only [List.length_append, List.length_cons] at hfuel
      obtain ⟨items', hrun⟩ := ih fuel items (by omega) hn
      refine ⟨items', ?_⟩
      rw [hhead.parseLoopIn_none, skipLineIn_run htext]
      exact hrun
  | @last head p hhead =>
      intro fuel items hfuel hn
      obtain ⟨fuel, rfl⟩ := Nat.exists_eq_succ_of_ne_zero (Nat.ne_of_gt (Nat.zero_lt_of_lt hfuel))
      have hpos := hhead.length_pos
      obtain ⟨fuel, rfl⟩ := Nat.exists_eq_succ_of_ne_zero (by omega : fuel ≠ 0)
      have heq := hhead.parseLoopIn_some stack (fuel + 1) items []
      rw [List.append_nil, if_pos (by omega)] at heq
      exact ⟨_, heq⟩
  | @item head rest b p n hhead hrest ih =>
      intro fuel items hfuel hn
      obtain ⟨fuel, rfl⟩ := Nat.exists_eq_succ_of_ne_zero (Nat.ne_of_gt (Nat.zero_lt_of_lt hfuel))
      simp only [List.length_append, List.length_cons] at hfuel
      obtain ⟨items', hrun⟩ := ih fuel (items ++ [(stack fuel).filled p]) (by omega) (by
        rw [List.length_append, List.length_singleton]
        omega)
      refine ⟨items', ?_⟩
      rw [hhead.parseLoopIn_some, if_pos (by omega)]
      exact hrun

/-- A run without a fault is the run of the scanner, whatever lies behind the file. -/
theorem parseLoop_of_parseLoopIn (past : Nat → Byte) :
    ∀ (fuel : Nat) (left : List Byte) (behind : Nat) (items items' : List ConfItem),
      parseLoopIn stack fuel left items = .ok items' →
        parseLoop past (fun i => (stack i).toConfItem) fuel ⟨left, behind⟩ items =
          some items' := by
  intro fuel
  induction fuel with
  | zero =>
      intro left behind items items' hrun
      cases hrun
  | succ fuel ih =>
      intro left behind items items' hrun
      by_cases hnil : left = []
      · rw [parseLoopIn, if_pos hnil] at hrun
        rw [parseLoop, if_pos (show (Cursor.mk left behind).left = [] from hnil),
          Except.ok.inj hrun]
      · rcases head_or_unfinished left with ⟨head, p, rest, rfl, hhead⟩ | hstuck
        · cases p with
          | none =>
              rw [hhead.parseLoopIn_none] at hrun
              rw [hhead.parseLoop_none]
              cases hskip : skipLineIn rest with
              | error e =>
                  rw [hskip] at hrun
                  cases hrun
              | ok left =>
                  rw [hskip] at hrun
                  obtain ⟨text, rest, rfl, htext, rfl⟩ := skipLineIn_ok hskip
                  rw [skipLine_eq htext]
                  exact ih rest behind items items' hrun
          | some p =>
              rw [hhead.parseLoopIn_some] at hrun
              rw [hhead.parseLoop_some]
              by_cases hroom : items.length < 64
              · rw [if_pos hroom] at hrun ⊢
                cases rest with
                | nil => exact ih [] (behind + 1) _ items' hrun
                | cons b rest => exact ih rest behind _ items' hrun
              · rw [if_neg hroom] at hrun
                cases hrun
        · rw [hstuck.parseLoopIn_eq hnil] at hrun
          cases hrun

theorem parseConfig_of_parseConfigIn (past : Nat → Byte) {data : List Byte}
    {items : List ConfItem} (h : parseConfigIn stack data = .ok items) :
    parseConfig past (fun i => (stack i).toConfItem) data = some items :=
  parseLoop_of_parseLoopIn past _ data 0 [] items h

theorem skipLineIn_error {left : List Byte} {e : Fault} (h : skipLineIn left = .error e) :
    e = .read := by
  induction left with
  | nil => exact (Except.error.inj h).symm
  | cons b left ih =>
      rw [skipLineIn] at h
      by_cases hb : b ≠ 10
      · rw [if_pos hb] at h
        exact ih h
      · rw [if_neg hb] at h
        exact nomatch h

/-- Every pass takes a byte, so the loop comes to an end on every file. -/
theorem parseLoopIn_terminates : ∀ (fuel : Nat) (left : List Byte) (items : List ConfItem),
    left.length < fuel → parseLoopIn stack fuel left items ≠ .error .fuel := by
  intro fuel
  induction fuel with
  | zero =>
      intro left items hfuel
      exact absurd hfuel (Nat.not_lt_zero _)
  | succ fuel ih =>
      intro left items hfuel hrun
      by_cases hnil : left = []
      · rw [parseLoopIn, if_pos hnil] at hrun
        exact nomatch hrun
      · rcases head_or_unfinished left with ⟨head, p, rest, rfl, hhead⟩ | hstuck
        · have hpos := hhead.length_pos
          rw [List.length_append] at hfuel
          cases p with
          | none =>
              rw [hhead.parseLoopIn_none] at hrun
              cases hskip : skipLineIn rest with
              | error e =>
                  obtain rfl := skipLineIn_error hskip
                  rw [hskip] at hrun
                  exact nomatch hrun
              | ok left =>
                  rw [hskip] at hrun
                  obtain ⟨text, rest, rfl, -, rfl⟩ := skipLineIn_ok hskip
                  simp only [List.length_append, List.length_cons] at hfuel
                  exact ih rest items (by omega) hrun
          | some p =>
              rw [hhead.parseLoopIn_some] at hrun
              by_cases hroom : items.length < 64
              · rw [if_pos hroom] at hrun
                have htail : rest.tail.length ≤ rest.length := by
                  rw [List.length_tail]
                  exact Nat.sub_le _ _
                exact ih rest.tail _ (by omega) hrun
              · rw [if_neg hroom] at hrun
                exact nomatch hrun
        · rw [hstuck.parseLoopIn_eq hnil] at hrun
          exact nomatch hrun

end Runs

/-- The scanner comes to an end on every file; it stays in the file and in its arrays exactly on
the files of the grammar that have at most 64 items. -/
theorem parseConfigIn_ok_iff (stack : Nat → LocalItem) (data : List Byte) :
    parseConfigIn stack data ≠ .error .fuel ∧
      ((∃ items, parseConfigIn stack data = .ok items) ↔ ∃ n ≤ 64, Scans n data) := by
  refine ⟨parseLoopIn_terminates _ data [] (Nat.lt_succ_self _), ?_, ?_⟩
  · rintro ⟨items, hrun⟩
    obtain ⟨n, hscans, hn⟩ := scans_of_parseLoopIn _ data [] items (Nat.zero_le _) hrun
    rw [List.length_nil, Nat.zero_add] at hn
    exact ⟨n, hn, hscans⟩
  · rintro ⟨n, hn, hscans⟩
    apply hscans.parseLoopIn_ok _ _ (Nat.lt_succ_self _)
    rwa [List.length_nil, Nat.zero_add]

/-- A local `item` of zeros. -/
def zeroItem : LocalItem where
  name := List.replicate 64 0
  nameLen := 0
  val := List.replicate 64 0
  valLen := 0
  name_length := rfl
  val_length := rfl

/-- `A=[b]` and an empty line: behind the last end of a line the scanner looks for white space
once more. -/
theorem emptyLine_reads_behind :
    ¬∃ items, parseConfigIn (fun _ => zeroItem) [65, 61, 91, 98, 93, 10, 10] = .ok items := by
  have hrun : parseConfigIn (fun _ => zeroItem) [65, 61, 91, 98, 93, 10, 10] = .error .read := by
    rfl
  rintro ⟨items, hok⟩
  rw [hrun] at hok
  exact nomatch hok

end ClayFigure
