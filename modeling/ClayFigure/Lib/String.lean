/-
# Strings in memory

The functions of `lib/string.c`. The memory behind a pointer is the list of the bytes that can be
read there; `none` is an access behind its end. A string is a list of bytes without a zero, held
with a zero behind it.
-/

import ClayFigure.Kernel.Global

namespace ClayFigure

/-! ## The code -/

/-- A byte read as a `char`. -/
def charVal (b : Byte) : Int := b.toBitVec.toInt

/-- `strlen`. -/
def strlen : List Byte → Option Nat
  | [] => none
  | b :: str => if b = 0 then some 0 else (strlen str).map (· + 1)

/-- `strcmp`. -/
def strcmp : List Byte → List Byte → Option Int
  | b₁ :: str1, b₂ :: str2 =>
      if b₁ ≠ 0 ∧ b₂ ≠ 0 ∧ b₁ = b₂ then strcmp str1 str2 else some (charVal b₁ - charVal b₂)
  | _, _ => none

/-- `strcpy`: the destination afterwards. -/
def strcpy : List Byte → List Byte → Option (List Byte)
  | _ :: dst, b :: src => if b = 0 then some (b :: dst) else (strcpy dst src).map (b :: ·)
  | _, _ => none

/-- The first loop of `strncpy`: the bytes it stores, and `n` behind it. -/
def strncpyCopy : List Byte → Nat → Option (List Byte × Nat)
  | _, 0 => some ([], sub64 0 1)
  | [], _ + 1 => none
  | b :: src, n + 1 =>
      if b = 0 then some ([], n) else (strncpyCopy src n).map fun (copied, n) => (b :: copied, n)

/-- `strncpy`: the bytes it stores at `dst` on. -/
def strncpy (src : List Byte) (n : Nat) : Option (List Byte) :=
  (strncpyCopy src n).map fun (copied, n) => copied ++ List.replicate n 0

/-- The copy of the name in `init_task_struct`; `none` is a store behind the array. -/
def initTaskName (array name : List Byte) : Option (List Byte) := do
  let stored ← strncpy name 31
  if array.length < stored.length then none
  else return (stored ++ array.drop stored.length).set 31 0

/-- What `strncmp` returns behind its loop. -/
def strncmpEnd (str1 str2 : List Byte) (n : Nat) : Option Int :=
  if 0 < n then do return charVal (← str1.head?) - charVal (← str2.head?) else some 0

/-- `strncmp`. -/
def strncmp : List Byte → List Byte → Nat → Option Int
  | str1, str2, 0 => strncmpEnd str1 str2 (sub64 0 1)
  | [], _, _ + 1 => none
  | a :: str1, str2, n + 1 =>
      if a = 0 then strncmpEnd (a :: str1) str2 n
      else
        match str2 with
        | [] => none
        | b :: str2 =>
            if b = 0 then strncmpEnd (a :: str1) (b :: str2) n
            else if a ≠ b then some (charVal a - charVal b)
            else strncmp str1 str2 n

/-- `memcpy` out of a memory: the bytes copied. -/
def memcpy (src : List Byte) (size : Nat) : Option (List Byte) :=
  if size ≤ src.length then some (src.take size) else none

/-! ## What they do on strings -/

/-- A string with its zero. -/
def cstr (s : List Byte) : List Byte := s ++ [0]

theorem charVal_injective : Function.Injective charVal := by
  intro a b h
  exact UInt8.toBitVec_inj.mp (BitVec.toInt_inj.mp h)

theorem charVal_sub_eq_zero {a b : Byte} : charVal a - charVal b = 0 ↔ a = b := by
  rw [Int.sub_eq_zero]
  exact charVal_injective.eq_iff

theorem strlen_cstr {s : List Byte} (hs : 0 ∉ s) (rest : List Byte) :
    strlen (cstr s ++ rest) = some s.length := by
  induction s with
  | nil => rfl
  | cons b s ih =>
      rw [List.mem_cons, not_or] at hs
      show (if b = 0 then some 0 else (strlen (cstr s ++ rest)).map (· + 1)) = _
      rw [if_neg (Ne.symm hs.1), ih hs.2]
      rfl

/-- `strcmp` answers zero on equal strings only, and does not read behind either. -/
theorem strcmp_cstr {s t : List Byte} (hs : 0 ∉ s) (ht : 0 ∉ t) (rest rest' : List Byte) :
    ∃ d, strcmp (cstr s ++ rest) (cstr t ++ rest') = some d ∧ (d = 0 ↔ s = t) := by
  induction s generalizing t with
  | nil =>
      cases t with
      | nil => exact ⟨_, rfl, by simp⟩
      | cons b t =>
          rw [List.mem_cons, not_or] at ht
          refine ⟨charVal 0 - charVal b, rfl, ?_⟩
          rw [charVal_sub_eq_zero]
          exact iff_of_false ht.1 (List.cons_ne_nil b t).symm
  | cons a s ih =>
      rw [List.mem_cons, not_or] at hs
      cases t with
      | nil =>
          refine ⟨charVal a - charVal 0, ?_, ?_⟩
          · show (if a ≠ 0 ∧ (0 : Byte) ≠ 0 ∧ a = 0 then _ else _) = _
            rw [if_neg fun h => h.2.1 rfl]
          · rw [charVal_sub_eq_zero]
            exact iff_of_false (Ne.symm hs.1) (List.cons_ne_nil a s)
      | cons b t =>
          rw [List.mem_cons, not_or] at ht
          show ∃ d, (if a ≠ 0 ∧ b ≠ 0 ∧ a = b then strcmp (cstr s ++ rest) (cstr t ++ rest')
            else some (charVal a - charVal b)) = some d ∧ _
          by_cases hab : a = b
          · rw [if_pos ⟨Ne.symm hs.1, Ne.symm ht.1, hab⟩]
            obtain ⟨d, hd, hiff⟩ := ih hs.2 ht.2
            refine ⟨d, hd, hiff.trans ?_⟩
            rw [List.cons.injEq, and_iff_right hab]
          · rw [if_neg fun h => hab h.2.2]
            refine ⟨_, rfl, ?_⟩
            rw [charVal_sub_eq_zero, List.cons.injEq]
            exact iff_of_false hab fun h => hab h.1

/-- `strcpy` writes the string and its zero, and leaves the rest of a large enough destination. -/
theorem strcpy_cstr {s : List Byte} (hs : 0 ∉ s) {dst : List Byte} (hlen : s.length < dst.length)
    (rest : List Byte) :
    strcpy dst (cstr s ++ rest) = some (cstr s ++ dst.drop (s.length + 1)) := by
  induction s generalizing dst with
  | nil =>
      cases dst with
      | nil => exact absurd hlen (Nat.not_lt_zero _)
      | cons d dst => rfl
  | cons b s ih =>
      rw [List.mem_cons, not_or] at hs
      cases dst with
      | nil => exact absurd hlen (Nat.not_lt_zero _)
      | cons d dst =>
          have hrest := ih hs.2 (Nat.lt_of_succ_lt_succ hlen)
          show (if b = 0 then _ else (strcpy dst (cstr s ++ rest)).map (b :: ·)) = _
          rw [if_neg (Ne.symm hs.1), hrest]
          rfl

/-! ## `strncpy` -/

theorem strncpyCopy_cstr {s : List Byte} (hs : 0 ∉ s) (rest : List Byte) (n : Nat) :
    strncpyCopy (cstr s ++ rest) n =
      some (s.take n, if s.length < n then n - s.length - 1 else sub64 0 1) := by
  induction n generalizing s with
  | zero =>
      rw [strncpyCopy, List.take_zero, if_neg (Nat.not_lt_zero _)]
  | succ n ih =>
      cases s with
      | nil =>
          show some (([] : List Byte), n) = some ([], if 0 < n + 1 then n + 1 - 0 - 1 else _)
          rw [if_pos (Nat.succ_pos n)]
          rfl
      | cons b s =>
          rw [List.mem_cons, not_or] at hs
          show (if b = 0 then _ else (strncpyCopy (cstr s ++ rest) n).map _) = _
          have hlt : (b :: s).length < n + 1 ↔ s.length < n := Nat.succ_lt_succ_iff
          have hsub : n + 1 - (b :: s).length = n - s.length := Nat.succ_sub_succ n s.length
          rw [if_neg (Ne.symm hs.1), ih hs.2, Option.map_some, List.take_succ_cons, hsub]
          simp only [hlt]

/-- The zeros behind the copied bytes are one too few, or fill all of the address space when the
string has left no room for one. -/
theorem strncpy_cstr {s : List Byte} (hs : 0 ∉ s) (rest : List Byte) (n : Nat) :
    strncpy (cstr s ++ rest) n = some (s.take n ++
      List.replicate (if s.length < n then n - s.length - 1 else sub64 0 1) 0) := by
  rw [strncpy, strncpyCopy_cstr hs rest n, Option.map_some]

/-- The number of bytes that `strncpy` stores. -/
theorem length_strncpy {s stored : List Byte} (hs : 0 ∉ s) {rest : List Byte} {n : Nat}
    (hstored : strncpy (cstr s ++ rest) n = some stored) :
    stored.length = if s.length < n then n - 1 else n + sub64 0 1 := by
  rw [strncpy_cstr hs] at hstored
  rw [← Option.some.inj hstored, List.length_append, List.length_take, List.length_replicate]
  split <;> omega

/-- What `strncpy` is to store: exactly `n` bytes, those of the string and zeros behind them. -/
def strncpyField (s : List Byte) (n : Nat) : List Byte :=
  s.take n ++ List.replicate (n - s.length) 0

theorem length_strncpyField (s : List Byte) (n : Nat) : (strncpyField s n).length = n := by
  rw [strncpyField, List.length_append, List.length_take, List.length_replicate]
  omega

theorem initTaskName_isSome {s : List Byte} (hs : 0 ∉ s) (rest : List Byte) {array : List Byte}
    (harray : array.length = 32) :
    (initTaskName array (cstr s ++ rest)).isSome ↔ s.length < 31 := by
  have hcopy := strncpy_cstr hs rest 31
  have hlen := length_strncpy hs hcopy
  simp only [initTaskName, hcopy, Option.bind_eq_bind, Option.bind_some, hlen, harray]
  by_cases hshort : s.length < 31
  · rw [if_pos hshort, if_neg (by decide)]
    exact iff_of_true rfl hshort
  · have hwrap : 32 < 31 + sub64 0 1 := by
      rw [show sub64 0 1 = wordSize - 1 from rfl]
      unfold wordSize
      omega
    rw [if_neg hshort, if_pos hwrap]
    exact iff_of_false nofun hshort

/-- `strncpy` never stores what it is to store, but one byte less or nearly 2^64 more; and the
copy of a task's name stays inside of its 32 bytes just if the name has less than 31. -/
theorem strncpy_ne_field {s : List Byte} (hs : 0 ∉ s) (rest : List Byte) (n : Nat)
    {array : List Byte} (harray : array.length = 32) :
    strncpy (cstr s ++ rest) n ≠ some (strncpyField s n) ∧
      ((initTaskName array (cstr s ++ rest)).isSome ↔ s.length < 31) := by
  refine ⟨fun hfield => ?_, initTaskName_isSome hs rest harray⟩
  have hlen := length_strncpy hs hfield
  rw [length_strncpyField] at hlen
  have hwrap : sub64 0 1 ≠ 0 := by decide
  split at hlen
  · omega
  · omega

/-- A name that fills the 31 bytes `kern_create_proc` copies. -/
theorem strncpy_ne_field_name :
    strncpy (cstr (List.replicate 31 97)) 31 ≠ some (strncpyField (List.replicate 31 97) 31) ∧
      ¬ (initTaskName (List.replicate 32 0) (cstr (List.replicate 31 97))).isSome := by
  have h := @strncpy_ne_field (List.replicate 31 97) (by decide) [] 31 (List.replicate 32 0) rfl
  rw [List.append_nil] at h
  exact ⟨h.1, fun hsome => absurd (h.2.mp hsome) (by decide)⟩

/-- Four bytes for the two of `ab` are not all stored. -/
theorem strncpy_ab : strncpy (cstr [97, 98]) 4 ≠ some (strncpyField [97, 98] 4) := by
  decide

/-! ## `strncmp` -/

/-- What `strncmp` is to answer: a number that does not depend on what is behind the first `n`
characters or a zero before that, zero just if the strings agree up to there, and else of the sign
of the first difference. -/
def ComparesFirst (s t : List Byte) (n : Nat) : Prop :=
  ∃ d, (∀ rest rest', strncmp ((cstr s).take n ++ rest) ((cstr t).take n ++ rest') n = some d) ∧
    (d = 0 ↔ s.take n = t.take n) ∧
    ∀ common a b u v, cstr s = common ++ a :: u → cstr t = common ++ b :: v → a ≠ b →
      common.length < n → d.sign = (charVal a - charVal b).sign

/-- The strings do not agree on `n` characters, and neither is the other one's first `n - 1`. -/
def EndsBefore (s t : List Byte) (n : Nat) : Prop :=
  ¬ (n ≤ s.length ∧ s.take n = t.take n) ∧ ¬ (s.length + 1 = n ∧ s <+: t ∧ s ≠ t) ∧
    ¬ (t.length + 1 = n ∧ t <+: s ∧ t ≠ s)

/-- A difference at the first character. -/
theorem comparesFirst_of_ne {s t : List Byte} {n : Nat} {a b : Byte} {u v : List Byte}
    (hs : cstr s = a :: u) (ht : cstr t = b :: v) (hab : a ≠ b)
    (hanswer : ∀ rest rest', strncmp ((cstr s).take (n + 1) ++ rest)
      ((cstr t).take (n + 1) ++ rest') (n + 1) = some (charVal a - charVal b))
    (htake : s.take (n + 1) ≠ t.take (n + 1)) : ComparesFirst s t (n + 1) := by
  refine ⟨_, hanswer, ?_, fun common a' b' u' v' hs' ht' hab' _ => ?_⟩
  · rw [charVal_sub_eq_zero]
    exact iff_of_false hab htake
  · cases common with
    | nil =>
        obtain ⟨rfl, -⟩ := List.cons.inj (hs.symm.trans hs')
        obtain ⟨rfl, -⟩ := List.cons.inj (ht.symm.trans ht')
        rfl
    | cons c common =>
        obtain ⟨rfl, -⟩ := List.cons.inj (hs.symm.trans hs')
        obtain ⟨rfl, -⟩ := List.cons.inj (ht.symm.trans ht')
        exact absurd rfl hab

/-- A common first character makes no difference. -/
theorem comparesFirst_cons {a : Byte} (ha : a ≠ 0) (s t : List Byte) (n : Nat) :
    ComparesFirst (a :: s) (a :: t) (n + 1) ↔ ComparesFirst s t n := by
  have hstep (rest rest' : List Byte) :
      strncmp ((cstr (a :: s)).take (n + 1) ++ rest) ((cstr (a :: t)).take (n + 1) ++ rest')
        (n + 1) = strncmp ((cstr s).take n ++ rest) ((cstr t).take n ++ rest') n := by
    show (if a = 0 then _ else if a = 0 then _ else if a ≠ a then _ else strncmp _ _ n) = _
    rw [if_neg ha, if_neg ha, if_neg (not_not.mpr rfl)]
    rfl
  unfold ComparesFirst
  simp only [hstep, List.take_succ_cons, List.cons.injEq, true_and]
  refine exists_congr fun d => and_congr_right fun _ => and_congr_right fun _ => ⟨fun h => ?_,
    fun h => ?_⟩
  · intro common b c u v hs ht hbc hlen
    exact h (a :: common) b c u v (congrArg (a :: ·) hs) (congrArg (a :: ·) ht) hbc
      (Nat.succ_lt_succ hlen)
  · intro common b c u v hs ht hbc hlen
    cases common with
    | nil =>
        obtain ⟨rfl, -⟩ := List.cons.inj hs
        obtain ⟨rfl, -⟩ := List.cons.inj ht
        exact absurd rfl hbc
    | cons x common =>
        exact h common b c u v (List.cons.inj hs).2 (List.cons.inj ht).2 hbc
          (Nat.lt_of_succ_lt_succ hlen)

theorem endsBefore_cons (a : Byte) (s t : List Byte) (n : Nat) :
    EndsBefore (a :: s) (a :: t) (n + 1) ↔ EndsBefore s t n := by
  simp only [EndsBefore, List.length_cons, Nat.succ_le_succ_iff, List.take_succ_cons,
    List.cons.injEq, true_and, Nat.succ_inj, List.cons_prefix_cons, ne_eq]

theorem endsBefore_nil_cons (b : Byte) (t : List Byte) (n : Nat) :
    EndsBefore [] (b :: t) (n + 1) ↔ 0 < n := by
  refine ⟨fun h => Nat.pos_of_ne_zero fun hn => ?_,
    fun hn => ⟨fun h => ?_, fun h => ?_, fun h => ?_⟩⟩
  · exact h.2.1 ⟨congrArg (· + 1) hn.symm, List.nil_prefix, (List.cons_ne_nil b t).symm⟩
  · exact Nat.not_succ_le_zero n h.1
  · exact Nat.ne_of_lt hn (Nat.succ_inj.mp h.1)
  · exact List.cons_ne_nil b t (List.prefix_nil.mp h.2.1)

theorem endsBefore_cons_nil (a : Byte) (s : List Byte) (n : Nat) :
    EndsBefore (a :: s) [] (n + 1) ↔ 0 < n := by
  refine ⟨fun h => Nat.pos_of_ne_zero fun hn => ?_,
    fun hn => ⟨fun h => ?_, fun h => ?_, fun h => ?_⟩⟩
  · exact h.2.2 ⟨congrArg (· + 1) hn.symm, List.nil_prefix, (List.cons_ne_nil a s).symm⟩
  · exact List.cons_ne_nil a _ h.2
  · exact List.cons_ne_nil a s (List.prefix_nil.mp h.2.1)
  · exact Nat.ne_of_lt hn (Nat.succ_inj.mp h.1)

/-- A string that ends at the first character before the other one. -/
theorem comparesFirst_nil_iff {s t : List Byte} {n : Nat} {a b : Byte} {u v : List Byte}
    (hs : cstr s = a :: u) (ht : cstr t = b :: v) (hab : a ≠ b) (hend : a = 0 ∨ b = 0)
    (hne : s.take (n + 1) ≠ t.take (n + 1)) : ComparesFirst s t (n + 1) ↔ 0 < n := by
  have hanswer (rest rest' : List Byte) :
      strncmp ((cstr s).take (n + 1) ++ rest) ((cstr t).take (n + 1) ++ rest') (n + 1) =
        if 0 < n then some (charVal a - charVal b) else some 0 := by
    rw [hs, ht]
    show (if a = 0 then strncmpEnd (a :: _) (b :: _) n
      else if b = 0 then strncmpEnd (a :: _) (b :: _) n else _) = _
    rcases hend with rfl | rfl
    · rw [if_pos rfl]
      rfl
    · rw [if_neg hab, if_pos rfl]
      rfl
  by_cases hn : 0 < n
  · refine iff_of_true (comparesFirst_of_ne hs ht hab (fun rest rest' => ?_) hne) hn
    rw [hanswer, if_pos hn]
  · refine iff_of_false (fun ⟨d, hd, hiff, _⟩ => hne (hiff.mp ?_)) hn
    have hzero := hanswer [] []
    rw [if_neg hn, hd [] []] at hzero
    exact Option.some.inj hzero

/-- `strncmp` answers as it is to if the strings end or differ before the countdown does; else it
looks at the characters at `n`, or takes two strings for equal that differ at `n - 1`. -/
theorem strncmp_comparesFirst_iff {s t : List Byte} (hs : 0 ∉ s) (ht : 0 ∉ t) (n : Nat) :
    ComparesFirst s t n ↔ EndsBefore s t n := by
  induction n generalizing s t with
  | zero =>
      refine iff_of_false (fun ⟨d, hd, _⟩ => ?_) fun h => h.1 ⟨Nat.zero_le _, rfl⟩
      cases hd [] []
  | succ n ih =>
      cases s with
      | nil =>
          cases t with
          | nil =>
              refine iff_of_true ⟨0, fun rest rest' => ?_, iff_of_true rfl rfl, ?_⟩
                ⟨fun h => absurd h.1 (by simp), fun h => h.2.2 rfl, fun h => h.2.2 rfl⟩
              · show (if 0 < n then some (charVal 0 - charVal 0) else some 0) = some 0
                split <;> rfl
              · intro common a b u v hs' ht' hab _
                have heq := List.append_cancel_left (hs'.symm.trans ht')
                exact absurd (List.cons.inj heq).1 hab
          | cons b t =>
              rw [List.mem_cons, not_or] at ht
              have hne : ([] : List Byte).take (n + 1) ≠ (b :: t).take (n + 1) :=
                (List.cons_ne_nil b _).symm
              rw [comparesFirst_nil_iff rfl rfl ht.1 (Or.inl rfl) hne, endsBefore_nil_cons]
      | cons a s =>
          rw [List.mem_cons, not_or] at hs
          cases t with
          | nil =>
              have hne : (a :: s).take (n + 1) ≠ ([] : List Byte).take (n + 1) :=
                List.cons_ne_nil a _
              rw [comparesFirst_nil_iff rfl rfl (Ne.symm hs.1) (Or.inr rfl) hne,
                endsBefore_cons_nil]
          | cons b t =>
              rw [List.mem_cons, not_or] at ht
              by_cases hab : a = b
              · rw [← hab, comparesFirst_cons (Ne.symm hs.1), endsBefore_cons, ih hs.2 ht.2]
              · have htake : (a :: s).take (n + 1) ≠ (b :: t).take (n + 1) :=
                  fun h => hab (List.cons.inj h).1
                refine iff_of_true (comparesFirst_of_ne (a := a) (b := b) rfl rfl hab
                  (fun rest rest' => ?_) htake) ⟨fun h => htake h.2, fun h => ?_, fun h => ?_⟩
                · show (if a = 0 then _ else if b = 0 then _ else if a ≠ b then _ else _) = _
                  rw [if_neg (Ne.symm hs.1), if_neg (Ne.symm ht.1), if_pos hab]
                · exact hab (List.cons_prefix_cons.mp h.2.1).1
                · exact hab (List.cons_prefix_cons.mp h.2.1).1.symm

/-- The comparison of the name of an xHCI protocol that is not USB. -/
theorem strncmp_comparesFirst_pci : ComparesFirst [80, 67, 73, 32] [85, 83, 66, 32] 4 :=
  (strncmp_comparesFirst_iff (by decide) (by decide) 4).mpr (by simp [EndsBefore])

/-- Names that begin with `USB ` are told apart by what is behind these four characters. -/
theorem strncmp_not_comparesFirst_usb :
    ¬ ComparesFirst [85, 83, 66, 32, 120] [85, 83, 66, 32] 4 := by
  rintro ⟨d, hd, -⟩
  cases hd [] []

end ClayFigure
