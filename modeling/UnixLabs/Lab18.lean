import UnixLabs.Decimal

/-!
`lab18/lab18.c`: a listing of files.

A first loop takes the width of each column over all files, a second one prints them.
The widths are always right. What stands in the group column is what `get_uname`
returns, and numbers are written with `%d`.
-/

namespace UnixLabs.Lab18

/-- `struct stat`, as far as it is listed. `st_size` is an `off_t`. -/
structure Stat where
  stMode : ℕ
  stNlink : ℕ
  stUid : ℕ
  stGid : ℕ
  stSize : ℤ
  stMtim : ℤ

/-- The user and the group database. The length of a name is an
`int`. -/
structure Names where
  getpwuid : ℕ → Option CString
  getgrgid : ℕ → Option CString
  user_short : ∀ uid, ∀ name ∈ getpwuid uid, name.chars.length < 2 ^ 31
  group_short : ∀ gid, ∀ name ∈ getgrgid gid, name.chars.length < 2 ^ 31

/-- A file of the command line, and what `lstat` says of it, if it succeeds. -/
structure File where
  filename : CString
  stat : Option Stat

structure Format where
  linkLen : ℕ
  unameLen : ℕ
  gnameLen : ℕ
  sizeLen : ℕ

def isDir (mode : ℕ) : Bool := mode &&& 0o170000 == 0o040000

def isReg (mode : ℕ) : Bool := mode &&& 0o170000 == 0o100000

def numberSize (num : ℤ) : ℕ := (percentD num).length

def numToStr (num : ℤ) : List CChar := percentD num

/-- What `get_uname` and `get_gname` return: a copy of the name, if there is one. -/
def nameOrNumber (name : Option CString) (id : ℕ) : List CChar :=
  match name with
  | some name => name.chars
  | none => numToStr id

def getUname (names : Names) (st : Stat) : List CChar :=
  nameOrNumber (names.getpwuid st.stUid) st.stUid

/-- `get_gname`, which nothing calls. -/
def getGname (names : Names) (st : Stat) : List CChar :=
  nameOrNumber (names.getgrgid st.stGid) st.stGid

/-! ### The first loop -/

def uname (names : Names) (st : Stat) : List CChar := getUname names st

/-- `gnames[i]`, which is not what `get_gname` returns. -/
def gname (names : Names) (st : Stat) : List CChar := getUname names st

def addFile (names : Names) (format : Format) (f : File) : Format :=
  match f.stat with
  | none => format
  | some st =>
      let sizeLen := if isReg st.stMode then numberSize st.stSize else 0
      { unameLen := max (uname names st).length format.unameLen
        gnameLen := max (gname names st).length format.gnameLen
        sizeLen := max sizeLen format.sizeLen
        linkLen := max (numberSize st.stNlink) format.linkLen }

def formatOf (names : Names) (files : List File) : Format :=
  files.foldl (addFile names) ⟨0, 0, 0, 0⟩

/-! ### The second loop -/

/-- A text with a field width, as in `%*s`. -/
structure Column where
  width : ℕ
  text : List CChar

/-- What `printf` writes for a column. The width goes into an `int`, and a negative one
means blanks behind the text. -/
def Column.print (c : Column) : List CChar :=
  let blanks := List.replicate ((intOf c.width).natAbs - c.text.length) 0x20
  if intOf c.width < 0 then c.text ++ blanks else blanks ++ c.text

structure Row where
  mode : List CChar
  links : Column
  owner : Column
  group : Column
  size : Column
  time : List CChar
  name : List CChar

def Row.print (r : Row) : List CChar :=
  r.mode ++ [0x20] ++ r.links.print ++ [0x20] ++ r.owner.print ++ [0x20] ++ r.group.print ++
    [0x20] ++ r.size.print ++ [0x20] ++ r.time ++ [0x20] ++ r.name ++ [newline]

/-- One of the nine access bits, of the given type. A missing `r` or `w` is a root sign,
which has three bytes. -/
def accessChars (type : ℕ) (granted : Bool) : List CChar :=
  if granted then [if type = 0 then 0x72 else if type = 1 then 0x77 else 0x78]
  else if type < 2 then [0xE2, 0x88, 0x9A] else [0x2D]

def printMode (stMode : ℕ) : List CChar :=
  [if isDir stMode then 0x64 else if isReg stMode then 0x2D else 0x3F] ++
    (List.range 9).flatMap fun k => accessChars (k % 3) (stMode.testBit (8 - k))

def printTime (ctime : ℤ → CString) (timer : ℤ) : List CChar :=
  (ctime timer).chars.takeWhile (· != newline)

/-- `basename` of the GNU library: what follows the last slash. -/
def basename (filename : CString) : List CChar :=
  (filename.chars.reverse.takeWhile (· != 0x2F)).reverse

def printStat (ctime : ℤ → CString) (filename : CString) (st : Stat) (format : Format)
    (uname gname : List CChar) : Row where
  mode := printMode st.stMode
  links := ⟨format.linkLen, percentD st.stNlink⟩
  owner := ⟨format.unameLen, uname⟩
  group := ⟨format.gnameLen, gname⟩
  size := ⟨format.sizeLen, if isReg st.stMode then percentD st.stSize else []⟩
  time := printTime ctime st.stMtim
  name := basename filename

def printFile (names : Names) (ctime : ℤ → CString) (format : Format) (f : File) : Option Row :=
  f.stat.map fun st => printStat ctime f.filename st format (uname names st) (gname names st)

/-- The rows that `main` prints. A file without a status is reported elsewhere. -/
def listing (names : Names) (ctime : ℤ → CString) (files : List File) : List Row :=
  files.filterMap (printFile names ctime (formatOf names files))

/-! ### The widths -/

/-- What the columns of a file take fits into these widths. -/
structure Covers (names : Names) (format : Format) (st : Stat) : Prop where
  links : (percentD st.stNlink).length ≤ format.linkLen
  owner : (uname names st).length ≤ format.unameLen
  group : (gname names st).length ≤ format.gnameLen
  size : isReg st.stMode = true → (percentD st.stSize).length ≤ format.sizeLen

structure Short (format : Format) : Prop where
  links : format.linkLen < 2 ^ 31
  owner : format.unameLen < 2 ^ 31
  group : format.gnameLen < 2 ^ 31
  size : format.sizeLen < 2 ^ 31

structure Wider (format format' : Format) : Prop where
  links : format.linkLen ≤ format'.linkLen
  owner : format.unameLen ≤ format'.unameLen
  group : format.gnameLen ≤ format'.gnameLen
  size : format.sizeLen ≤ format'.sizeLen

variable {names : Names} {format format' : Format} {st : Stat}

theorem Covers.wider (h : Covers names format st) (hw : Wider format format') :
    Covers names format' st where
  links := h.links.trans hw.links
  owner := h.owner.trans hw.owner
  group := h.group.trans hw.group
  size hreg := (h.size hreg).trans hw.size

theorem Wider.trans {format'' : Format} (h : Wider format format') (h' : Wider format' format'') :
    Wider format format'' where
  links := h.links.trans h'.links
  owner := h.owner.trans h'.owner
  group := h.group.trans h'.group
  size := h.size.trans h'.size

theorem wider_addFile (names : Names) (format : Format) (f : File) :
    Wider format (addFile names format f) := by
  unfold addFile
  cases f.stat with
  | none => exact ⟨le_rfl, le_rfl, le_rfl, le_rfl⟩
  | some st =>
      exact ⟨le_max_right _ _, le_max_right _ _, le_max_right _ _, le_max_right _ _⟩

theorem covers_addFile (names : Names) (format : Format) {f : File} (hst : f.stat = some st) :
    Covers names (addFile names format f) st := by
  rw [addFile, hst]
  refine ⟨le_max_left _ _, le_max_left _ _, le_max_left _ _, fun hreg => ?_⟩
  show _ ≤ max (if isReg st.stMode = true then numberSize st.stSize else 0) format.sizeLen
  rw [if_pos hreg]
  exact le_max_left _ _

theorem length_percentD_lt (num : ℤ) : (percentD num).length < 2 ^ 31 :=
  (length_percentD_le num).trans_lt (by decide)

theorem length_getUname_lt (names : Names) (st : Stat) : (getUname names st).length < 2 ^ 31 := by
  unfold getUname nameOrNumber
  split
  · next name hname => exact names.user_short st.stUid name hname
  · exact length_percentD_lt _

theorem short_addFile (h : Short format) (f : File) : Short (addFile names format f) := by
  unfold addFile
  cases f.stat with
  | none => exact h
  | some st =>
      have hname := length_getUname_lt names st
      have hsize : (if isReg st.stMode = true then numberSize st.stSize else 0) < 2 ^ 31 := by
        split_ifs
        · exact length_percentD_lt st.stSize
        · decide
      exact ⟨max_lt (length_percentD_lt st.stNlink) h.links, max_lt hname h.owner,
        max_lt hname h.group, max_lt hsize h.size⟩

theorem foldl_addFile (names : Names) (files : List File) (h : Short format) :
    Short (files.foldl (addFile names) format) ∧
      Wider format (files.foldl (addFile names) format) ∧
      ∀ f ∈ files, ∀ st ∈ f.stat, Covers names (files.foldl (addFile names) format) st := by
  induction files generalizing format with
  | nil => exact ⟨h, ⟨le_rfl, le_rfl, le_rfl, le_rfl⟩, List.forall_mem_nil _⟩
  | cons f files ih =>
      obtain ⟨hshort, hwider, hcovers⟩ := ih (short_addFile h f)
      refine ⟨hshort, (wider_addFile names format f).trans hwider, ?_⟩
      rw [List.forall_mem_cons]
      exact ⟨fun st hst => (covers_addFile names format hst).wider hwider, hcovers⟩

/-- A text that fits is printed in as many characters as its column has. -/
theorem Column.length_print {width : ℕ} {text : List CChar} (hfits : text.length ≤ width)
    (hshort : width < 2 ^ 31) : (Column.mk width text).print.length = width := by
  have hwidth : intOf width = width := by
    apply intOf_of_le
    · omega
    · unfold intMax
      omega
  rw [Column.print, hwidth, if_neg (by omega), List.length_append, List.length_replicate]
  show (width : ℤ).natAbs - text.length + text.length = width
  omega

theorem length_columns (h : Covers names format st) (hshort : Short format) (ctime : ℤ → CString)
    (filename : CString) :
    (printStat ctime filename st format (uname names st) (gname names st)).links.print.length =
        format.linkLen ∧
      (printStat ctime filename st format (uname names st) (gname names st)).owner.print.length =
        format.unameLen ∧
      (printStat ctime filename st format (uname names st) (gname names st)).group.print.length =
        format.gnameLen ∧
      (printStat ctime filename st format (uname names st) (gname names st)).size.print.length =
        format.sizeLen := by
  refine ⟨Column.length_print h.links hshort.links, Column.length_print h.owner hshort.owner,
    Column.length_print h.group hshort.group, Column.length_print ?_ hshort.size⟩
  show (if isReg st.stMode = true then percentD st.stSize else []).length ≤ format.sizeLen
  split_ifs with hreg
  · exact h.size hreg
  · exact Nat.zero_le _

/-! ### What the rows show -/

def nameOrId (name : Option CString) (id : ℕ) : List CChar :=
  match name with
  | some name => name.chars
  | none => decimalInt id

structure Shows (names : Names) (st : Stat) (r : Row) : Prop where
  owner : r.owner.text = nameOrId (names.getpwuid st.stUid) st.stUid
  group : r.group.text = nameOrId (names.getgrgid st.stGid) st.stGid
  links : r.links.text = decimalInt st.stNlink
  size : isReg st.stMode = true → r.size.text = decimalInt st.stSize

structure SameWidths (r r' : Row) : Prop where
  links : r.links.print.length = r'.links.print.length
  owner : r.owner.print.length = r'.owner.print.length
  group : r.group.print.length = r'.group.print.length
  size : r.size.print.length = r'.size.print.length

/-- A row for each file with a status, which shows it, and columns one below the other. -/
structure ListingRight (names : Names) (files : List File) (rows : List Row) : Prop where
  shown : List.Forall₂ (Shows names) (files.filterMap File.stat) rows
  aligned : ∀ r ∈ rows, ∀ r' ∈ rows, SameWidths r r'

/-- A file of which the listing shows the right things. -/
structure Plain (names : Names) (st : Stat) : Prop where
  owner : names.getpwuid st.stUid = none → FitsInt st.stUid
  group : nameOrId (names.getpwuid st.stUid) st.stUid =
    nameOrId (names.getgrgid st.stGid) st.stGid
  links : FitsInt st.stNlink
  size : isReg st.stMode = true → FitsInt st.stSize

theorem nameOrNumber_eq_iff (name : Option CString) (id : ℕ) :
    nameOrNumber name id = nameOrId name id ↔ (name = none → FitsInt id) := by
  cases name with
  | none =>
      show percentD id = decimalInt id ↔ _
      rw [percentD_eq_iff]
      exact ⟨fun h _ => h, fun h => h rfl⟩
  | some name => exact iff_of_true rfl fun h => by cases h

theorem getGname_eq_iff (names : Names) (st : Stat) :
    getGname names st = nameOrId (names.getgrgid st.stGid) st.stGid ↔
      (names.getgrgid st.stGid = none → FitsInt st.stGid) :=
  nameOrNumber_eq_iff _ _

/-- A row shows its file exactly when owner and group read the same and no number is too
large for `%d`. -/
theorem shows_iff (ctime : ℤ → CString) (filename : CString) (format : Format) :
    Shows names st (printStat ctime filename st format (uname names st) (gname names st)) ↔
      Plain names st := by
  have hname := nameOrNumber_eq_iff (names.getpwuid st.stUid) st.stUid
  constructor
  · rintro ⟨howner, hgroup, hlinks, hsize⟩
    simp only [printStat] at howner hgroup hlinks hsize
    refine ⟨hname.mp howner, howner.symm.trans hgroup, (percentD_eq_iff _).mp hlinks,
      fun hreg => ?_⟩
    have hshown := hsize hreg
    rw [if_pos hreg] at hshown
    exact (percentD_eq_iff _).mp hshown
  · rintro ⟨howner, hgroup, hlinks, hsize⟩
    have hsame := hname.mpr howner
    constructor
    · exact hsame
    · exact hsame.trans hgroup
    · simp only [printStat]
      exact (percentD_eq_iff _).mpr hlinks
    · intro hreg
      simp only [printStat, if_pos hreg]
      exact (percentD_eq_iff _).mpr (hsize hreg)

theorem shown_iff (ctime : ℤ → CString) (format : Format) (files : List File) :
    List.Forall₂ (Shows names) (files.filterMap File.stat)
        (files.filterMap (printFile names ctime format)) ↔
      ∀ f ∈ files, ∀ st ∈ f.stat, Plain names st := by
  induction files with
  | nil => exact iff_of_true .nil (List.forall_mem_nil _)
  | cons f files ih =>
      rw [List.forall_mem_cons]
      cases hst : f.stat with
      | none =>
          rw [List.filterMap_cons_none hst, List.filterMap_cons_none (by rw [printFile, hst]; rfl),
            ih]
          exact (and_iff_right fun _ h => by cases h).symm
      | some st =>
          rw [List.filterMap_cons_some hst,
            List.filterMap_cons_some (by rw [printFile, hst]; rfl), List.forall₂_cons, ih,
            shows_iff]
          apply and_congr_left'
          constructor
          · intro h st' hst'
            cases hst'
            exact h
          · intro h
            exact h st rfl

/-- The columns are always aligned. They show every file exactly when for each of them
owner and group read the same and no number is too large for `%d`. -/
theorem listing_iff (names : Names) (ctime : ℤ → CString) (files : List File) :
    ListingRight names files (listing names ctime files) ↔
      ∀ f ∈ files, ∀ st ∈ f.stat, Plain names st := by
  have hstart : Short ⟨0, 0, 0, 0⟩ := ⟨by decide, by decide, by decide, by decide⟩
  obtain ⟨hshort, -, hcovers⟩ := foldl_addFile names files hstart
  have hwidths : ∀ r ∈ listing names ctime files,
      r.links.print.length = (formatOf names files).linkLen ∧
        r.owner.print.length = (formatOf names files).unameLen ∧
        r.group.print.length = (formatOf names files).gnameLen ∧
        r.size.print.length = (formatOf names files).sizeLen := by
    intro r hr
    obtain ⟨f, hf, hprint⟩ := List.mem_filterMap.mp hr
    obtain ⟨st, hst, rfl⟩ := Option.map_eq_some_iff.mp hprint
    exact length_columns (hcovers f hf st hst) hshort ctime f.filename
  refine ⟨fun h => (shown_iff ctime _ files).mp h.shown, fun h => ⟨(shown_iff ctime _ files).mpr h,
    fun r hr r' hr' => ?_⟩⟩
  obtain ⟨hlinks, howner, hgroup, hsize⟩ := hwidths r hr
  obtain ⟨hlinks', howner', hgroup', hsize'⟩ := hwidths r' hr'
  exact ⟨hlinks.trans hlinks'.symm, howner.trans howner'.symm, hgroup.trans hgroup'.symm,
    hsize.trans hsize'.symm⟩

def oneUserAndGroup : Names where
  getpwuid _ := some ⟨[0x72], by decide⟩
  getgrgid _ := some ⟨[0x61], by decide⟩
  user_short _ name hname := by cases hname; decide
  group_short _ name hname := by cases hname; decide

/-- A file `f` of user `r` and group `a` is listed with the group `r`. -/
theorem group_shows_owner :
    ((listing oneUserAndGroup (fun _ => ⟨[0x54, newline], by decide⟩)
        [⟨⟨[0x66], by decide⟩, some ⟨0o100644, 1, 0, 4, 12, 0⟩⟩]).map
          fun r => (r.owner.text, r.group.text)) = [([0x72], [0x72])] ∧
      ¬ListingRight oneUserAndGroup [⟨⟨[0x66], by decide⟩, some ⟨0o100644, 1, 0, 4, 12, 0⟩⟩]
        (listing oneUserAndGroup (fun _ => ⟨[0x54, newline], by decide⟩)
          [⟨⟨[0x66], by decide⟩, some ⟨0o100644, 1, 0, 4, 12, 0⟩⟩]) := by
  refine ⟨rfl, fun h => ?_⟩
  have hplain := (shown_iff _ _ _).mp h.shown
  have hgroup := (hplain _ List.mem_cons_self _ rfl).group
  exact absurd hgroup (by decide)

end UnixLabs.Lab18
