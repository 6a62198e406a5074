/-
# The ram file system

An image is written on the host by `tools/imgcopy.c` and read in the kernel by
`ramfs/ramfs.c`. The two share the layout of two structures: a header with the number of files,
and for each file its size and its name in 64 bytes, with the contents behind them. `strncpy`
pads the name up to the last of these bytes, which it leaves as it was.
-/

import ClayFigure.Lib.String
import ClayFigure.Math.LittleEndian

namespace ClayFigure

open ClayFigure.Math

/-- `MAX_NAME_LEN`. -/
abbrev maxNameLen : Nat := 63

/-- The `magic` of an image. -/
abbrev ramfsMagic : Nat := 0xffaaffaaffaaffaa

/-! ## The writer -/

/-- `strncpy` of the host into the 64 bytes of `file_name`; `last` is the byte behind those it
writes. -/
def strncpyName (name : List Byte) (last : Byte) : List Byte :=
  name.take maxNameLen ++ List.replicate (maxNameLen - name.length) 0 ++ [last]

/-- What `main` writes for a file: `ramfs_file_meta_data_t` and the contents. -/
def fileRecord (name contents : List Byte) (last : Byte) : List Byte :=
  toLE 8 contents.length ++ strncpyName name last ++ contents

/-- `-copy`. -/
def copyFlag : List Byte := [45, 99, 111, 112, 121]

/-- `TRAILER!!!`. -/
def trailer : List Byte := [84, 82, 65, 73, 76, 69, 82, 33, 33, 33]

/-- The loop over the arguments: the path and the name of each file, or the value that `main`
returns. -/
def readArgs : List (List Byte) → Except Int (List (List Byte × List Byte))
  | flag :: file :: name :: args =>
      if flag ≠ copyFlag then .error 0
      else if name.length > maxNameLen then .error (-1)
      else (readArgs args).map ((file, name) :: ·)
  | _ => .ok []

/-- The loop over the files: a file that cannot be opened is left out. -/
def writeFiles (fopen : List Byte → Option (List Byte)) (stack : Nat → Byte) :
    Nat → List (List Byte × List Byte) → List Byte
  | _, [] => []
  | i, (path, name) :: fileList =>
      match fopen path with
      | none => writeFiles fopen stack (i + 1) fileList
      | some contents =>
          fileRecord name contents (stack i) ++ writeFiles fopen stack (i + 1) fileList

/-- `main` of imgcopy: the value it returns and what it writes to the standard output. `args`
are the arguments behind the program's name, `fopen` gives the contents of the files that can
be opened, and `stack i` is what the last byte of `fdata.file_name` holds for file `i`. -/
def imgcopy (fopen : List Byte → Option (List Byte)) (stack : Nat → Byte)
    (args : List (List Byte)) : Int × List Byte :=
  let argc := args.length + 1
  if argc < 4 ∨ argc % 3 ≠ 1 then (-1, [])
  else
    match readArgs args with
    | .error value => (value, [])
    | .ok fileList =>
        (0, toLE 8 ramfsMagic ++ toLE 8 ((argc - 1) / 3) ++ writeFiles fopen stack 0 fileList ++
          trailer)

/-! ## The reader -/

/-- `ramfs_file_t`; `data` is the place of the contents in the image. -/
structure RamfsFile where
  name : List Byte
  size : Nat
  data : Nat
  deriving DecidableEq, Repr

/-- A 64-bit word of the image; `none` is an access outside of it. -/
def readWord (image : List Byte) (place : Nat) : Option Nat :=
  (memcpy (image.drop place) 8).map ofLE

/-- The loop of `ramfs_open` for `files` files from `fdata` on. -/
def openLoop (image name : List Byte) (file : Bool) :
    Nat → Nat → Option (Status × Option RamfsFile)
  | 0, _ => some (.kNotFound, none)
  | files + 1, fdata => do
      if (← strcmp (image.drop (fdata + 8)) name) = 0 then
        if file then
          return (.kSuccess, some {
            name := ← memcpy (image.drop (fdata + 8)) maxNameLen
            size := ← readWord image fdata
            data := fdata + 72 })
        else return (.kSuccess, none)
      else openLoop image name file files (fdata + add64 72 (← readWord image fdata))

/-- `ramfs_open` on an image in memory; `file` is that the caller passes a place for the file
found. -/
def ramfsOpen (image : List Byte) (name : Option (List Byte)) (file : Bool) :
    Option (Status × Option RamfsFile) :=
  match name with
  | none => some (.kNotFound, none)
  | some name => do
      if (← strlen name) > maxNameLen then return (.kNotFound, none)
      else if (← readWord image 0) ≠ ramfsMagic then return (.kError, none)
      else openLoop image name file (← readWord image 8) 16

/-! ## Files -/

/-- A file to be packed: its name leaves room for a zero in 63 bytes, and its size is a `long`
that `ftell` answers. -/
structure HostFile where
  path : List Byte
  name : List Byte
  contents : List Byte
  name_le : name.length ≤ 62
  name_plain : 0 ∉ name
  contents_lt : contents.length < 2 ^ 63

namespace HostFile

/-- The arguments `-copy File Name` for each file. -/
def args : List HostFile → List (List Byte)
  | [] => []
  | f :: files => copyFlag :: f.path :: f.name :: args files

/-- The records of the files, the first of which is written as number `i`. -/
def records (stack : Nat → Byte) : Nat → List HostFile → List Byte
  | _, [] => []
  | i, f :: files => fileRecord f.name f.contents (stack i) ++ records stack (i + 1) files

/-- The image of the files. -/
def image (stack : Nat → Byte) (files : List HostFile) : List Byte :=
  toLE 8 ramfsMagic ++ toLE 8 files.length ++ records stack 0 files ++ trailer

/-- The first file of a name. -/
def find (name : List Byte) (files : List HostFile) : Option HostFile :=
  files.find? fun f => f.name = name

/-- The name as it is in the 63 bytes that are copied. -/
def padded (f : HostFile) : List Byte := f.name ++ List.replicate (maxNameLen - f.name.length) 0

theorem name_le_max (f : HostFile) : f.name.length ≤ maxNameLen := Nat.le_succ_of_le f.name_le

theorem length_padded (f : HostFile) : f.padded.length = maxNameLen := by
  rw [padded, List.length_append, List.length_replicate]
  exact Nat.add_sub_cancel' f.name_le_max

theorem strncpyName_eq (f : HostFile) (last : Byte) :
    strncpyName f.name last = f.padded ++ [last] := by
  rw [strncpyName, padded, List.take_of_length_le f.name_le_max]

/-- The padding begins with the zero that ends the name. -/
theorem padded_eq_cstr (f : HostFile) :
    f.padded = cstr f.name ++ List.replicate (62 - f.name.length) 0 := by
  have hsucc : maxNameLen - f.name.length = 62 - f.name.length + 1 :=
    Nat.succ_sub f.name_le
  rw [padded, hsucc, List.replicate_succ, cstr, List.append_assoc, List.singleton_append]

theorem length_fileRecord (f : HostFile) (last : Byte) :
    (fileRecord f.name f.contents last).length = 72 + f.contents.length := by
  have hname : (strncpyName f.name last).length = 64 := by
    rw [strncpyName_eq, List.length_append, length_padded, List.length_singleton]
  rw [fileRecord, List.length_append, List.length_append, hname, length_toLE]

theorem length_args (files : List HostFile) : (args files).length = 3 * files.length := by
  induction files with
  | nil => rfl
  | cons f files ih =>
      rw [args, List.length_cons, List.length_cons, List.length_cons, List.length_cons, ih]
      omega

theorem readArgs_args (files : List HostFile) :
    readArgs (args files) = .ok (files.map fun f => (f.path, f.name)) := by
  induction files with
  | nil => rfl
  | cons f files ih =>
      have hle : ¬ f.name.length > maxNameLen := Nat.not_lt.mpr f.name_le_max
      rw [args, readArgs, if_neg (not_not.mpr rfl), if_neg hle, ih]
      rfl

theorem writeFiles_map {fopen : List Byte → Option (List Byte)} (stack : Nat → Byte)
    {files : List HostFile} (hopen : ∀ f ∈ files, fopen f.path = some f.contents) (i : Nat) :
    writeFiles fopen stack i (files.map fun f => (f.path, f.name)) = records stack i files := by
  induction files generalizing i with
  | nil => rfl
  | cons f files ih =>
      have hrest := ih (fun g hg => hopen g (List.mem_cons_of_mem f hg)) (i + 1)
      simp only [List.map_cons, writeFiles, hopen f List.mem_cons_self, hrest, records]

/-- What `imgcopy` writes. -/
theorem imgcopy_args {fopen : List Byte → Option (List Byte)} (stack : Nat → Byte)
    {files : List HostFile} (hne : files ≠ [])
    (hopen : ∀ f ∈ files, fopen f.path = some f.contents) :
    imgcopy fopen stack (args files) = (0, image stack files) := by
  have hpos : 0 < files.length := List.length_pos_iff.mpr hne
  have hargc : ¬ ((args files).length + 1 < 4 ∨ ((args files).length + 1) % 3 ≠ 1) := by
    rw [length_args]
    omega
  have hcount : ((args files).length + 1 - 1) / 3 = files.length := by
    rw [length_args]
    omega
  simp only [imgcopy, if_neg hargc, readArgs_args, hcount, writeFiles_map stack hopen, image]

end HostFile

/-! ## Reading an image -/

theorem memcpy_append (s rest : List Byte) : memcpy (s ++ rest) s.length = some s := by
  rw [memcpy, if_pos (by rw [List.length_append]; exact Nat.le_add_right _ _), List.take_left]

/-- A word is read where it has been written. -/
theorem readWord_append {n : Nat} (hn : n < wordSize) (pre rest : List Byte) :
    readWord (pre ++ (toLE 8 n ++ rest)) pre.length = some n := by
  have hcopy := memcpy_append (toLE 8 n) rest
  rw [length_toLE] at hcopy
  rw [readWord, List.drop_left, hcopy, Option.map_some, ofLE_toLE hn]

theorem readWord_start {n : Nat} (hn : n < wordSize) (rest : List Byte) :
    readWord (toLE 8 n ++ rest) 0 = some n := readWord_append hn [] rest

/-- What `ramfs_open` says of a file found: its name as copied, its size, and a place of the
image that holds its contents. -/
def FoundAs (image : List Byte) (f : HostFile) (r : RamfsFile) : Prop :=
  r.name = f.padded ∧ r.size = f.contents.length ∧ r.data + r.size ≤ image.length ∧
    (image.drop r.data).take r.size = f.contents

namespace HostFile

/-- The contents are behind the meta data. -/
theorem foundAs_record (stack : Nat → Byte) (g : HostFile) (files : List HostFile) (i : Nat)
    (pre post : List Byte) : FoundAs (pre ++ records stack i (g :: files) ++ post) g
      ⟨g.padded, g.contents.length, pre.length + 72⟩ := by
  have himage : pre ++ records stack i (g :: files) ++ post =
      (pre ++ (toLE 8 g.contents.length ++ strncpyName g.name (stack i))) ++
        (g.contents ++ (records stack (i + 1) files ++ post)) := by
    rw [records, fileRecord]
    simp only [List.append_assoc]
  have hlen : (pre ++ (toLE 8 g.contents.length ++ strncpyName g.name (stack i))).length =
      pre.length + 72 := by
    rw [strncpyName_eq]
    simp only [List.length_append, length_toLE, length_padded, List.length_singleton]
    rfl
  refine ⟨rfl, rfl, ?_, ?_⟩
  · rw [himage]
    simp only [List.length_append] at hlen ⊢
    omega
  · rw [himage, List.drop_left' hlen, List.take_left]

section

variable {name : List Byte} (hname : 0 ∉ name) (stack : Nat → Byte) (rest : List Byte)
include hname

/-- The loop of `ramfs_open` from a record on. -/
theorem openLoop_records (files : List HostFile) (i : Nat) (pre post : List Byte) :
    (find name files = none → ∀ file,
      openLoop (pre ++ records stack i files ++ post) (cstr name ++ rest) file files.length
        pre.length = some (.kNotFound, none)) ∧
    ∀ f, find name files = some f →
      openLoop (pre ++ records stack i files ++ post) (cstr name ++ rest) false files.length
        pre.length = some (.kSuccess, none) ∧
      ∃ r, openLoop (pre ++ records stack i files ++ post) (cstr name ++ rest) true files.length
        pre.length = some (.kSuccess, some r) ∧
        FoundAs (pre ++ records stack i files ++ post) f r := by
  induction files generalizing i pre with
  | nil =>
      refine ⟨fun _ _ => rfl, fun f hf => ?_⟩
      cases hf
  | cons g files ih =>
      have hlt := g.contents_lt
      -- The image around the first record.
      set tail := stack i :: (g.contents ++ (records stack (i + 1) files ++ post)) with htail
      have himage : pre ++ records stack i (g :: files) ++ post =
          pre ++ (toLE 8 g.contents.length ++ (g.padded ++ tail)) := by
        rw [records, fileRecord, strncpyName_eq]
        simp only [List.append_assoc, List.cons_append, List.nil_append, htail]
      have hnext : pre ++ records stack i (g :: files) ++ post =
          pre ++ fileRecord g.name g.contents (stack i) ++ records stack (i + 1) files ++ post := by
        rw [records]
        simp only [List.append_assoc]
      have hsize : pre.length + add64 72 g.contents.length =
          (pre ++ fileRecord g.name g.contents (stack i)).length := by
        rw [List.length_append, length_fileRecord, add64_of_lt (by unfold wordSize; omega)]
      -- What the code reads of it.
      have hword := readWord_append (n := g.contents.length) (by unfold wordSize; omega) pre
        (g.padded ++ tail)
      have hdrop : (pre ++ (toLE 8 g.contents.length ++ (g.padded ++ tail))).drop (pre.length + 8) =
          g.padded ++ tail := by
        rw [← List.drop_drop, List.drop_left]
        exact List.drop_left' (length_toLE 8 _)
      have hcopy := memcpy_append g.padded tail
      rw [length_padded] at hcopy
      obtain ⟨d, hd, hiff⟩ := strcmp_cstr g.name_plain hname
        (List.replicate (62 - g.name.length) 0 ++ tail) rest
      rw [← List.append_assoc, ← padded_eq_cstr] at hd
      rw [← himage] at hword hdrop
      have hpass (file : Bool) : openLoop (pre ++ records stack i (g :: files) ++ post)
          (cstr name ++ rest) file (files.length + 1) pre.length =
          if g.name = name then
            some (.kSuccess, if file then some ⟨g.padded, g.contents.length, pre.length + 72⟩
              else none)
          else openLoop (pre ++ records stack i (g :: files) ++ post) (cstr name ++ rest) file
            files.length (pre ++ fileRecord g.name g.contents (stack i)).length := by
        simp only [openLoop, hdrop, hd, hcopy, hword, hiff, hsize, Option.bind_eq_bind,
          Option.bind_some, Option.pure_def]
        split
        · cases file <;> rfl
        · rfl
      rw [List.length_cons]
      by_cases hsame : g.name = name
      · have hfind : find name (g :: files) = some g :=
          List.find?_cons_of_pos (decide_eq_true hsame)
        simp only [hfind, hpass, if_pos hsame]
        refine ⟨fun h => ?_, fun f hf => ?_⟩
        · cases h
        · cases hf
          exact ⟨rfl, _, rfl, foundAs_record stack g files i pre post⟩
      · have hfind : find name (g :: files) = find name files :=
          List.find?_cons_of_neg fun h => hsame (of_decide_eq_true h)
        simp only [hfind, hpass, if_neg hsame]
        rw [hnext]
        exact ih (i + 1) (pre ++ fileRecord g.name g.contents (stack i))

end

theorem find_eq_none_of_long {name : List Byte} (hlong : maxNameLen < name.length)
    (files : List HostFile) : find name files = none := by
  apply List.find?_eq_none.mpr
  intro f _ h
  have hle := f.name_le_max
  rw [of_decide_eq_true h] at hle
  exact Nat.not_lt.mpr hle hlong

end HostFile

open HostFile in
/-- The image that `imgcopy` writes for files that can all be opened, as `ramfs_open` reads it:
each name in the list gives the size and the contents of its first file, and any other name
`K_NOT_FOUND`. No access is outside of the image. The bound is that of `argc`, an `int`. -/
theorem ramfsOpen_imgcopy {fopen : List Byte → Option (List Byte)} (stack : Nat → Byte)
    {files : List HostFile} (hne : files ≠ []) (hargc : (args files).length + 1 < 2 ^ 31)
    (hopen : ∀ f ∈ files, fopen f.path = some f.contents) :
    ∃ image, imgcopy fopen stack (args files) = (0, image) ∧
      ∀ name rest, 0 ∉ name →
        (find name files = none → ∀ file,
          ramfsOpen image (some (cstr name ++ rest)) file = some (.kNotFound, none)) ∧
        ∀ f, find name files = some f →
          ramfsOpen image (some (cstr name ++ rest)) false = some (.kSuccess, none) ∧
          ∃ r, ramfsOpen image (some (cstr name ++ rest)) true = some (.kSuccess, some r) ∧
            FoundAs image f r := by
  rw [length_args] at hargc
  refine ⟨_, imgcopy_args stack hne hopen, fun name rest hname => ?_⟩
  -- The header.
  have hmagic : readWord (image stack files) 0 = some ramfsMagic := by
    rw [image, List.append_assoc, List.append_assoc]
    exact readWord_start (by decide) _
  have hfiles : readWord (image stack files) 8 = some files.length := by
    have hword := readWord_append (n := files.length) (by unfold wordSize; omega)
      (toLE 8 ramfsMagic) (records stack 0 files ++ trailer)
    rw [length_toLE] at hword
    simpa only [image, List.append_assoc] using hword
  have hloop := openLoop_records hname stack rest files 0
    (toLE 8 ramfsMagic ++ toLE 8 files.length) trailer
  rw [List.length_append, length_toLE, length_toLE] at hloop
  by_cases hlong : maxNameLen < name.length
  · rw [find_eq_none_of_long hlong]
    refine ⟨fun _ file => ?_, fun f hf => ?_⟩
    · simp only [ramfsOpen, strlen_cstr hname, Option.bind_eq_bind, Option.bind_some, if_pos hlong,
        Option.pure_def]
    · cases hf
  · have hstart (file : Bool) : ramfsOpen (image stack files) (some (cstr name ++ rest)) file =
        openLoop (image stack files) (cstr name ++ rest) file files.length 16 := by
      simp only [ramfsOpen, strlen_cstr hname, Option.bind_eq_bind, Option.bind_some,
        if_neg hlong, hmagic, hfiles, ne_eq, not_true_eq_false, if_false]
    simp only [hstart]
    exact hloop

/-! ## The file of the repository, and two more -/

/-- `config.txt`, packed under the name `config`. -/
def configFile : HostFile where
  path := [99, 111, 110, 102, 105, 103, 46, 116, 120, 116]
  name := [99, 111, 110, 102, 105, 103]
  contents := [86, 69, 82, 83, 73, 79, 78, 32, 61, 32, 91, 48, 46, 48, 46, 48, 93, 10]
  name_le := by decide
  name_plain := by decide
  contents_lt := by decide

/-- Another file under the same name. -/
def shadowedFile : HostFile :=
  { configFile with
    path := [99, 111, 110, 102, 105, 103, 46, 111, 108, 100]
    contents := [10]
    contents_lt := by decide }

/-- An empty file with a name of one byte. -/
def emptyFile : HostFile where
  path := [101]
  name := [101]
  contents := []
  name_le := by decide
  name_plain := by decide
  contents_lt := by decide

/-- What the kernel finds of the three: under the name of two of them the first one. -/
theorem ramfsOpen_configFile : ∃ image,
    imgcopy (fun path => ([configFile, shadowedFile, emptyFile].find? (·.path = path)).map
      (·.contents)) (fun _ => 0xcc) (HostFile.args [configFile, shadowedFile, emptyFile]) =
        (0, image) ∧
      (∃ r, ramfsOpen image (some (cstr configFile.name)) true = some (.kSuccess, some r) ∧
        FoundAs image configFile r) ∧
      (∃ r, ramfsOpen image (some (cstr emptyFile.name)) true = some (.kSuccess, some r) ∧
        FoundAs image emptyFile r) ∧
      ramfsOpen image (some (cstr [])) true = some (.kNotFound, none) := by
  obtain ⟨image, himage, hopen⟩ := @ramfsOpen_imgcopy
    (fun path => ([configFile, shadowedFile, emptyFile].find? (·.path = path)).map (·.contents))
    (fun _ => 0xcc) [configFile, shadowedFile, emptyFile] (List.cons_ne_nil _ _) (by decide)
    (by simp only [List.forall_mem_cons, List.not_mem_nil, false_imp_iff, implies_true, and_true]
        exact ⟨rfl, rfl, rfl⟩)
  refine ⟨image, himage, ?_, ?_, ?_⟩
  · have h := ((hopen configFile.name [] (by decide)).2 configFile rfl).2
    rw [List.append_nil] at h
    exact h
  · have h := ((hopen emptyFile.name [] (by decide)).2 emptyFile rfl).2
    rw [List.append_nil] at h
    exact h
  · have h := (hopen [] [] (by decide)).1 rfl true
    rw [List.append_nil] at h
    exact h

end ClayFigure
