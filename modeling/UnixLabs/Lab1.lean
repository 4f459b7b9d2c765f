import UnixLabs.Strtol
import UnixLabs.Library.Memory

/-!
The options of `lab1/lab1.c`: one pass counts and checks them, a second one stores them.

The array has room for the options. The loop that fills it stores the -1 at the end of
the options too, behind the last of them.
-/

namespace UnixLabs.Lab1

open Library

/-- The letters of `OPTSTRING` that take no argument. -/
inductive Flag where
  | i | s | p | u | c | d | v
  deriving DecidableEq

inductive Setting where
  | U | C | V
  deriving DecidableEq

def Flag.char : Flag → CChar
  | i => 0x69
  | s => 0x73
  | p => 0x70
  | u => 0x75
  | c => 0x63
  | d => 0x64
  | v => 0x76

def Setting.char : Setting → CChar
  | U => 0x55
  | C => 0x43
  | V => 0x56

/-- What `getopt` returns, as long as it is not -1: an option, `'?'` or `':'`. -/
inductive Answer where
  | flag (f : Flag)
  | setting (s : Setting) (optarg : CString)
  | unknown (optopt : CChar)
  | noArgument (optopt : CChar)

def Answer.opt : Answer → CChar
  | flag f => f.char
  | setting s _ => s.char
  | unknown _ => 0x3F
  | noArgument _ => 0x3A

def Answer.optarg : Answer → Option CString
  | setting _ optarg => some optarg
  | _ => none

/-! ### The first pass -/

def sizeInvalid (optarg : CString) : Bool :=
  let res := strtol optarg.chars
  if res.rest.headD 0 ≠ 0 ∨ res.value < 0 then true else res.erange

def equalsSign : CChar := 0x3D

/-- The test of the argument of `-V`: one `=`, and not in front. -/
def nameInvalid (optarg : CString) : Bool :=
  match optarg.chars.findIdx? (· == equalsSign) with
  | none => true
  | some eq => eq == 0 || (optarg.chars.drop (eq + 1)).any (· == equalsSign)

def Answer.hasError : Answer → Bool
  | flag _ => false
  | setting .U optarg => sizeInvalid optarg
  | setting .C optarg => sizeInvalid optarg
  | setting .V optarg => nameInvalid optarg
  | unknown _ => true
  | noArgument _ => true

def peekFrom : List Answer → ℕ → Bool → ℕ × Bool
  | [], optCount, hasErrors => (optCount, hasErrors)
  | a :: answers, optCount, hasErrors =>
      peekFrom answers (optCount + 1) (hasErrors || a.hasError)

/-- `peek_options`: `opt_count`, and whether it fails. Arguments that are left over make
it fail too. -/
def peekOptions (answers : List Answer) (optind argc : ℕ) : ℕ × Bool :=
  let r := peekFrom answers 0 false
  (r.1, r.2 || decide (optind < argc))

/-! ### The second pass -/

structure Entry where
  c : CChar
  arg : Option CString

/-- The memory behind `options` and the indices that were stored to. -/
structure Stores where
  options : ℕ → Entry
  stored : List ℕ

def Stores.store (m : Stores) (i : ℕ) (e : Entry) : Stores :=
  ⟨Function.update m.options i e, m.stored ++ [i]⟩

/-- What `calloc` returns; behind it is memory of others. -/
def calloc (count : ℕ) (beyond : ℕ → Entry) : Stores :=
  ⟨fun i => if i < count then ⟨0, none⟩ else beyond i, []⟩

/-- The loop of `main` from `i` on. What `getopt` returns is stored before it is
compared with -1. -/
def recordFrom : List Answer → ℕ → Stores → Stores
  | [], i, m => m.store i ⟨-1, (m.options i).arg⟩
  | a :: answers, i, m =>
      let m := m.store i ⟨a.opt, (m.options i).arg⟩
      if (m.options i).c.toInt = -1 then m
      else
        let m := match a.optarg with
          | none => m
          | some optarg => m.store i ⟨(m.options i).c, some optarg⟩
        recordFrom answers (i + 1) m

/-- `main`, as far as `execute_options`: the count and the options, or `EXIT_FAILURE`.
`getopt` answers the same in both passes. -/
def recordOptions (beyond : ℕ → Entry) (answers : List Answer) (optind argc : ℕ) :
    Option (ℕ × Stores) :=
  let r := peekOptions answers optind argc
  if r.2 then none else some (r.1, recordFrom answers 0 (calloc r.1 beyond))

/-! ### What is stored -/

def Answer.entry (a : Answer) : Entry := ⟨a.opt, a.optarg⟩

/-- The options and their arguments are stored in order, and nothing outside of the
array. -/
structure Recorded (answers : List Answer) (optCount : ℕ) (m : Stores) : Prop where
  count : optCount = answers.length
  entries : firstCells m.options optCount = answers.map Answer.entry
  inside : ∀ i ∈ m.stored, i < optCount

theorem peekFrom_count (answers : List Answer) (optCount : ℕ) (hasErrors : Bool) :
    (peekFrom answers optCount hasErrors).1 = optCount + answers.length := by
  induction answers generalizing optCount hasErrors with
  | nil => rfl
  | cons a answers ih =>
      rw [peekFrom, ih, List.length_cons]
      omega

theorem opt_ne_end (a : Answer) : a.opt.toInt ≠ -1 := by
  cases a with
  | flag f => cases f <;> decide
  | setting s optarg =>
      show s.char.toInt ≠ -1
      cases s <;> decide
  | unknown optopt => show (0x3F : CChar).toInt ≠ -1; decide
  | noArgument optopt => show (0x3A : CChar).toInt ≠ -1; decide

@[simp] theorem options_store_self (m : Stores) (i : ℕ) (e : Entry) :
    (m.store i e).options i = e := Function.update_self _ _ _

/-- One round of the loop stores the option and its argument at its place. -/
theorem recordFrom_cons (a : Answer) (answers : List Answer) (i : ℕ) {m : Stores}
    (hempty : (m.options i).arg = none) :
    ∃ m', recordFrom (a :: answers) i m = recordFrom answers (i + 1) m' ∧
      m'.options = Function.update m.options i a.entry ∧
      ∀ k ∈ m'.stored, k ∈ m.stored ∨ k = i := by
  have hgoes : ¬((m.store i ⟨a.opt, none⟩).options i).c.toInt = -1 := by
    rw [options_store_self]
    exact opt_ne_end a
  cases harg : a.optarg with
  | none =>
      refine ⟨m.store i ⟨a.opt, none⟩, ?_, ?_, fun k hk => ?_⟩
      · rw [recordFrom, hempty, if_neg hgoes, harg]
      · rw [Answer.entry, harg]
        rfl
      · exact (List.mem_append.mp hk).imp_right List.mem_singleton.mp
  | some optarg =>
      refine ⟨(m.store i ⟨a.opt, none⟩).store i ⟨a.opt, some optarg⟩, ?_, ?_, fun k hk => ?_⟩
      · rw [recordFrom, hempty, if_neg hgoes, harg, options_store_self]
      · rw [Answer.entry, harg]
        exact Function.update_idem _ _ _
      · rw [Stores.store, Stores.store, List.mem_append, List.mem_append, List.mem_singleton,
          or_assoc, or_self] at hk
        exact hk

/-- The whole loop: what was there before is kept, the options follow in order, and the
last store is behind them. -/
theorem recordFrom_spec (answers : List Answer) (i : ℕ) {m : Stores}
    (hempty : ∀ k, i ≤ k → k < i + answers.length → (m.options k).arg = none) :
    firstCells (recordFrom answers i m).options (i + answers.length) =
        firstCells m.options i ++ answers.map Answer.entry ∧
      i + answers.length ∈ (recordFrom answers i m).stored ∧
      ∀ k ∈ (recordFrom answers i m).stored, k ∈ m.stored ∨ k ≤ i + answers.length := by
  induction answers generalizing i m with
  | nil =>
      refine ⟨?_, List.mem_append_right _ List.mem_cons_self, fun k hk => ?_⟩
      · rw [List.map_nil, List.append_nil, List.length_nil, Nat.add_zero]
        apply firstCells_congr
        intro k hk
        exact Function.update_of_ne (by omega) _ _
      · exact (List.mem_append.mp hk).imp_right fun hk => (List.mem_singleton.mp hk).le
  | cons a answers ih =>
      rw [List.length_cons] at hempty
      obtain ⟨m', hrecord, hoptions, hstored⟩ :=
        recordFrom_cons a answers i (hempty i le_rfl (by omega))
      have hempty' : ∀ k, i + 1 ≤ k → k < i + 1 + answers.length →
          (m'.options k).arg = none := by
        intro k hlow hhigh
        rw [hoptions, Function.update_of_ne (by omega)]
        exact hempty k (by omega) (by omega)
      obtain ⟨hcells, hlast, hall⟩ := ih (i + 1) hempty'
      have hend : i + (a :: answers).length = i + 1 + answers.length := by
        rw [List.length_cons]
        omega
      rw [hrecord, hend]
      refine ⟨?_, hlast, fun k hk => ?_⟩
      · rw [hcells, hoptions, firstCells_update, List.append_assoc]
        rfl
      · rcases hall k hk with hk | hk
        · rcases hstored k hk with hk | rfl
          · exact .inl hk
          · exact .inr (by omega)
        · exact .inr hk

/-- Accepted options are stored in order, and then there is one more store, behind the
array. -/
theorem options_overrun {answers : List Answer} {optind argc optCount : ℕ}
    (haccepted : peekOptions answers optind argc = (optCount, false)) (beyond : ℕ → Entry) :
    ∃ m, recordOptions beyond answers optind argc = some (optCount, m) ∧
      optCount = answers.length ∧ firstCells m.options optCount = answers.map Answer.entry ∧
      (∀ i ∈ m.stored, i ≤ optCount) ∧ optCount ∈ m.stored ∧ ¬Recorded answers optCount m := by
  have hcount : optCount = answers.length := by
    have hpeek := peekFrom_count answers 0 false
    rw [Nat.zero_add] at hpeek
    rw [← hpeek]
    exact (congrArg Prod.fst haccepted).symm
  obtain ⟨hcells, hlast, hall⟩ := recordFrom_spec answers 0
    (m := calloc optCount beyond) fun k _ hk => by
      show (if k < optCount then _ else _ : Entry).arg = none
      rw [if_pos (by omega)]
  rw [Nat.zero_add, ← hcount] at hcells hlast hall
  refine ⟨recordFrom answers 0 (calloc optCount beyond), ?_, hcount, hcells, fun i hi => ?_, hlast,
    fun h => ?_⟩
  · simp only [recordOptions, haccepted, Bool.false_eq_true, if_false]
  · exact (hall i hi).resolve_left List.not_mem_nil
  · exact lt_irrefl _ (h.inside _ hlast)

theorem options_overrun_two :
    peekOptions [.flag .i, .setting .U ⟨[0x37], by decide⟩] 3 3 = (2, false) ∧
    ∃ m, recordOptions (fun _ => ⟨7, none⟩) [.flag .i, .setting .U ⟨[0x37], by decide⟩] 3 3 =
        some (2, m) ∧
      2 = [Answer.flag .i, .setting .U ⟨[0x37], by decide⟩].length ∧
      firstCells m.options 2 =
        [Answer.flag .i, .setting .U ⟨[0x37], by decide⟩].map Answer.entry ∧
      (∀ i ∈ m.stored, i ≤ 2) ∧ 2 ∈ m.stored ∧
      ¬Recorded [.flag .i, .setting .U ⟨[0x37], by decide⟩] 2 m :=
  have haccepted : peekOptions [.flag .i, .setting .U ⟨[0x37], by decide⟩] 3 3 = (2, false) := by
    decide +kernel
  ⟨haccepted, options_overrun haccepted _⟩

/-- Without options the array is empty, and its first element is stored to. -/
theorem options_overrun_empty :
    ((recordOptions (fun _ => ⟨7, none⟩) [] 1 1).map fun r => (r.1, r.2.stored)) =
        some (0, [0]) ∧
      ¬∃ m, recordOptions (fun _ => ⟨7, none⟩) [] 1 1 = some (0, m) ∧ Recorded [] 0 m := by
  refine ⟨rfl, ?_⟩
  rintro ⟨m, hm, h⟩
  cases hm
  exact absurd (h.inside 0 List.mem_cons_self) (lt_irrefl 0)

end UnixLabs.Lab1
