import Mathlib.Data.List.TakeWhile
import UnixLabs.Platform
import UnixLabs.Library.LinkedList
import UnixLabs.Library.Pieces

/-!
`lab4/lab4.c`: the lines before one that begins with a dot, kept in a list and printed.

`fgets` reads pieces of lines, and `printf` gets them as formats. `main_eq` says what is
printed in terms of the pieces of the input.
-/

namespace UnixLabs.Lab4

open Library

def dot : CChar := 0x2E

def percent : CChar := 0x25

structure LineMax where
  size : ℕ
  two_le : 2 ≤ size
  fits : size < 2 ^ 31

/-- `fgets(buf, size, stdin)`: the string in `buf` and the rest of the input. -/
def fgets (size : ℕ) (input : List CChar) : Option (List CChar × List CChar) :=
  if input = [] then none else some (readPiece isNewline (size - 1) input)

/-- The string of `init_node`, copied up to the first NUL. Memory is taken to suffice. -/
def initNode (string : List CChar) : List CChar := string.takeWhile (· ≠ 0)

/-- The loop that fills the list. A node is known by the number of its allocation. -/
def readLines (size : ℕ) : ℕ → List CChar → LinkedList ℕ (List CChar) → ℕ →
    Option (LinkedList ℕ (List CChar))
  | 0, _, _, _ => none
  | fuel + 1, input, list, node =>
      match fgets size input with
      | none => some list
      | some (buf, rest) =>
          if buf.headD 0 = dot then some list
          else (list.append node (initNode buf)).bind fun list =>
            readLines size fuel rest list (node + 1)

/-- What `printf(format)` prints. Any conversion but `%%` lacks its argument, or there is
none of that name, and its behaviour is not defined. -/
def printf : List CChar → Option (List CChar)
  | [] => some []
  | [c] => if c = percent then none else some [c]
  | c :: d :: format =>
      if c = percent then
        if d = percent then (printf format).map (percent :: ·) else none
      else (printf (d :: format)).map (c :: ·)

def main (lineMax : LineMax) (input : List CChar) : Option (List CChar) := do
  let list ← readLines lineMax.size (input.length + 1) input .empty 0
  let printed ← traverse list.cells printf input.length list.head
  let _ ← clear input.length list.cells list.head
  some printed.flatten

def undotted (p : List CChar) : Bool := p.headD 0 ≠ dot

def kept (input : List CChar) : List (List CChar) :=
  (splitAfter isNewline input).takeWhile undotted

/-! ### What is stored -/

def stored (k : ℕ) (input : List CChar) : List (List CChar) :=
  (pieces isNewline k input).takeWhile undotted

theorem stored_of_ne_nil {k : ℕ} (hk : 0 < k) {input : List CChar} (hinput : input ≠ []) :
    stored k input = if (readPiece isNewline k input).1.headD 0 = dot then []
      else (readPiece isNewline k input).1 :: stored k (readPiece isNewline k input).2 := by
  rw [stored, pieces_of_ne_nil hk hinput]
  split
  next hdot =>
    apply List.takeWhile_cons_of_neg
    simpa [undotted] using hdot
  next hdot =>
    apply List.takeWhile_cons_of_pos
    simpa [undotted] using hdot

theorem initNode_eq {string : List CChar} (h : 0 ∉ string) : initNode string = string := by
  rw [initNode, List.takeWhile_eq_self_iff]
  intro c hc
  simpa using ne_of_mem_of_not_mem hc h

theorem readLines_spec {size : ℕ} (hsize : 2 ≤ size) {fuel : ℕ} {input : List CChar}
    (hnul : 0 ∉ input) (hfuel : input.length < fuel) {list : LinkedList ℕ (List CChar)}
    {ps : List ℕ} {xs : List (List CChar)} (hlist : list.Holds ps xs) {node : ℕ}
    (hnode : ∀ p ∈ ps, p < node) :
    ∃ list' ps', readLines size fuel input list node = some list' ∧
      list'.Holds ps' (xs ++ stored (size - 1) input) := by
  induction fuel generalizing input list ps xs node with
  | zero => cases hfuel
  | succ fuel ih =>
      rcases eq_or_ne input [] with rfl | hinput
      · refine ⟨list, ps, rfl, ?_⟩
        simpa [stored] using hlist
      have hk : 0 < size - 1 := by omega
      have hstored := stored_of_ne_nil hk hinput
      have happend := readPiece_append isNewline (size - 1) input
      have hne := readPiece_ne_nil isNewline hk hinput
      rw [readLines, fgets, if_neg hinput]
      generalize readPiece isNewline (size - 1) input = r at hstored happend hne
      obtain ⟨hbuf, hrest⟩ := not_or.mp (mt List.mem_append.mpr (happend ▸ hnul))
      show ∃ list' ps', (if r.1.headD 0 = dot then _ else _) = _ ∧ _
      split at hstored
      next hdot =>
        rw [if_pos hdot, hstored, List.append_nil]
        exact ⟨list, ps, rfl, hlist⟩
      next hdot =>
        have hnew : node ∉ ps := fun hmem => Nat.lt_irrefl node (hnode node hmem)
        obtain ⟨list', happended, hlist'⟩ := hlist.append hnew r.1
        -- no piece is empty, so one round leaves less input
        have hlength : r.2.length < fuel := by
          have hpos := List.length_pos_of_ne_nil hne
          have htotal := congrArg List.length happend
          rw [List.length_append] at htotal
          omega
        rw [if_neg hdot, initNode_eq hbuf, happended, Option.bind_some, hstored,
          List.append_cons]
        apply ih hrest hlength hlist'
        intro p hp
        rcases List.mem_append.mp hp with hp | hp
        · exact Nat.lt_succ_of_lt (hnode p hp)
        · obtain rfl := List.mem_singleton.mp hp
          exact Nat.lt_succ_self p

theorem length_stored_le {k : ℕ} (hk : 0 < k) (input : List CChar) :
    (stored k input).length ≤ input.length :=
  (List.takeWhile_prefix undotted).length_le.trans (length_pieces_le hk input)

/-- The pieces are printed in order, each as a format, and every node is freed. -/
theorem main_eq (lineMax : LineMax) {input : List CChar} (hnul : 0 ∉ input) :
    main lineMax input = ((stored (lineMax.size - 1) input).mapM printf).map List.flatten := by
  have hsize := lineMax.two_le
  have hnode : ∀ p ∈ ([] : List ℕ), p < 0 := fun p hp => absurd hp List.not_mem_nil
  obtain ⟨list, ps, hread, hlist⟩ := readLines_spec hsize hnul (Nat.lt_succ_self _)
    LinkedList.holds_empty hnode
  have hfuel : (stored (lineMax.size - 1) input).length ≤ input.length :=
    length_stored_le (by omega) input
  rw [List.nil_append] at hlist
  rw [main, hread]
  simp only [Option.bind_eq_bind, Option.bind_some, hlist.chain.traverse printf hfuel,
    hlist.chain.clear hlist.nodup hfuel]
  cases (stored (lineMax.size - 1) input).mapM printf <;> rfl

theorem undotted_take {k : ℕ} (hk : 0 < k) (l : List CChar) :
    undotted (l.take k) = undotted l := by
  rw [undotted, undotted, List.headD_eq_head?_getD, List.headD_eq_head?_getD, List.head?_take,
    if_neg (by omega)]

theorem takeWhile_flatMap_chunks {k : ℕ} (hk : 0 < k) {ls : List (List CChar)}
    (hls : ∀ l ∈ ls, l ≠ []) :
    (ls.flatMap (chunks k)).takeWhile undotted =
      ((ls.takeWhile undotted).flatMap (chunks k)).takeWhile undotted := by
  induction ls with
  | nil => rfl
  | cons l ls ih =>
      have hchunks := chunks_of_ne_nil hk (hls l List.mem_cons_self)
      cases hl : undotted l with
      | true =>
          rw [List.takeWhile_cons_of_pos hl, List.flatMap_cons, List.flatMap_cons,
            List.takeWhile_append, List.takeWhile_append,
            ih fun l hl => hls l (List.mem_cons_of_mem _ hl)]
      | false =>
          rw [List.takeWhile_cons_of_neg (by simp [hl]), List.flatMap_cons, hchunks]
          apply List.takeWhile_cons_of_neg
          rw [undotted_take hk, hl]
          exact Bool.false_ne_true

theorem stored_eq {k : ℕ} (hk : 0 < k) (input : List CChar) :
    stored k input = ((kept input).flatMap (chunks k)).takeWhile undotted :=
  takeWhile_flatMap_chunks hk fun _ => ne_nil_of_mem_splitAfter

/-! ### What is printed -/

theorem printf_plain {format : List CChar} (h : percent ∉ format) :
    printf format = some format := by
  induction format using printf.induct with
  | case1 => rfl
  | case2 => cases h List.mem_cons_self
  | case3 c hc => rw [printf, if_neg hc]
  | case4 => cases h List.mem_cons_self
  | case5 => cases h List.mem_cons_self
  | case6 c d format hc ih =>
      rw [printf, if_neg hc, ih (mt (List.mem_cons_of_mem c) h), Option.map_some]

/-- A text that is printed does not get longer, and with a `%` in it gets shorter. -/
theorem length_printf {format text : List CChar} (h : printf format = some text) :
    text.length ≤ format.length ∧ (percent ∈ format → text.length < format.length) := by
  induction format using printf.induct generalizing text with
  | case1 =>
      obtain rfl := Option.some.inj h
      simp
  | case2 => simp [printf] at h
  | case3 c hc =>
      rw [printf, if_neg hc] at h
      obtain rfl := Option.some.inj h
      simp [Ne.symm hc]
  | case4 format ih =>
      -- two characters become one
      rw [printf, if_pos rfl, if_pos rfl, Option.map_eq_some_iff] at h
      obtain ⟨text, htext, rfl⟩ := h
      have hle := (ih htext).1
      simp only [List.length_cons]
      omega
  | case5 d format hd => simp [printf, hd] at h
  | case6 c d format hc ih =>
      rw [printf, if_neg hc, Option.map_eq_some_iff] at h
      obtain ⟨text, htext, rfl⟩ := h
      obtain ⟨hle, hlt⟩ := ih htext
      simp only [List.length_cons] at hle hlt ⊢
      refine ⟨by omega, fun hmem => ?_⟩
      have := hlt (List.mem_of_ne_of_mem (Ne.symm hc) hmem)
      omega

theorem mapM_printf_plain {ps : List (List CChar)} (h : percent ∉ ps.flatten) :
    ps.mapM printf = some ps := by
  induction ps with
  | nil => rfl
  | cons p ps ih =>
      rw [List.flatten_cons, List.mem_append, not_or] at h
      rw [List.mapM_cons, printf_plain h.1, ih h.2]
      rfl

theorem length_mapM_printf {ps texts : List (List CChar)} (h : ps.mapM printf = some texts) :
    texts.flatten.length ≤ ps.flatten.length ∧
      (percent ∈ ps.flatten → texts.flatten.length < ps.flatten.length) := by
  induction ps generalizing texts with
  | nil =>
      obtain rfl := Option.some.inj h
      simp
  | cons p ps ih =>
      simp only [List.mapM_cons, Option.bind_eq_bind, Option.bind_eq_some_iff] at h
      obtain ⟨text, htext, texts, htexts, h⟩ := h
      obtain rfl := Option.some.inj h
      obtain ⟨hle, hlt⟩ := length_printf htext
      obtain ⟨hrest, hrest'⟩ := ih htexts
      simp only [List.flatten_cons, List.length_append, List.mem_append]
      refine ⟨by omega, ?_⟩
      rintro (hp | hps)
      · have := hlt hp
        omega
      · have := hrest' hps
        omega

/-- The pieces are printed as they are if none of them ends the program and none has a `%`. -/
theorem verbatim_iff {ps : List (List CChar)} (hps : ∀ p ∈ ps, p ≠ []) :
    ((ps.takeWhile undotted).mapM printf).map List.flatten = some ps.flatten ↔
      (∀ p ∈ ps, undotted p = true) ∧ percent ∉ ps.flatten := by
  constructor
  · intro h
    obtain ⟨texts, htexts, hflat⟩ := Option.map_eq_some_iff.mp h
    obtain ⟨hle, hlt⟩ := length_mapM_printf htexts
    have hdropped : (ps.dropWhile undotted).length ≤ (ps.dropWhile undotted).flatten.length :=
      length_le_length_flatten fun p hp => hps p ((List.dropWhile_sublist undotted).subset hp)
    have htotal : (ps.takeWhile undotted).flatten.length + (ps.dropWhile undotted).flatten.length =
        ps.flatten.length := by
      rw [← List.length_append, ← List.flatten_append, List.takeWhile_append_dropWhile]
    -- a piece that is left out would be missing in the length
    have hall : ∀ p ∈ ps, undotted p = true := by
      rw [← List.dropWhile_eq_nil_iff, ← List.length_eq_zero_iff]
      rw [hflat] at hle
      omega
    refine ⟨hall, fun hmem => ?_⟩
    rw [List.takeWhile_eq_self_iff.mpr hall, hflat] at hlt
    exact Nat.lt_irrefl _ (hlt hmem)
  · rintro ⟨hall, hplain⟩
    rw [List.takeWhile_eq_self_iff.mpr hall, mapM_printf_plain hplain, Option.map_some]

theorem undotted_iff (p : List CChar) : undotted p = true ↔ p.head? ≠ some dot := by
  cases p with
  | nil => decide
  | cons c p => simp [undotted]

theorem undotted_chunks_iff {k : ℕ} (hk : 0 < k) {l : List CChar} (hl : undotted l = true) :
    (∀ p ∈ chunks k l, undotted p = true) ↔ ∀ j, 0 < j → l[j * k]? ≠ some dot := by
  have hheads := not_congr (exists_head_chunks_iff hk l dot)
  push Not at hheads
  simp only [undotted_iff] at hl ⊢
  rw [hheads]
  refine ⟨fun h j _ => h j, fun h j => ?_⟩
  cases j with
  | zero => rwa [Nat.zero_mul, ← List.head?_eq_getElem?]
  | succ j => exact h (j + 1) j.succ_pos

/-- The lines before the first one that begins with a dot are printed as they are if and only
if they have no `%`, and no dot where `fgets` begins another piece of them. -/
theorem main_prints_iff (lineMax : LineMax) {input : List CChar} (hnul : 0 ∉ input) :
    main lineMax input = some (kept input).flatten ↔
      ∀ l ∈ kept input, percent ∉ l ∧
        ∀ j, 0 < j → l[j * (lineMax.size - 1)]? ≠ some dot := by
  have hk : 0 < lineMax.size - 1 := by
    have := lineMax.two_le
    omega
  have hflat := flatten_flatMap_chunks hk (kept input)
  have hpieces : ∀ p ∈ (kept input).flatMap (chunks (lineMax.size - 1)), p ≠ [] := fun p hp => by
    obtain ⟨l, -, hp⟩ := List.mem_flatMap.mp hp
    exact ne_nil_of_mem_chunks hp
  rw [main_eq lineMax hnul, stored_eq hk, ← hflat, verbatim_iff hpieces, hflat]
  have hkept : ∀ l ∈ kept input, undotted l = true := fun l hl => List.mem_takeWhile_imp hl
  constructor
  · rintro ⟨hall, hplain⟩ l hl
    refine ⟨fun hmem => hplain (List.mem_flatten_of_mem hl hmem), ?_⟩
    apply (undotted_chunks_iff hk (hkept l hl)).mp
    exact fun p hp => hall p (List.mem_flatMap_of_mem hl hp)
  · intro h
    refine ⟨fun p hp => ?_, fun hmem => ?_⟩
    · obtain ⟨l, hl, hp⟩ := List.mem_flatMap.mp hp
      exact (undotted_chunks_iff hk (hkept l hl)).mpr (h l hl).2 p hp
    · obtain ⟨l, hl, hmem⟩ := List.mem_flatten.mp hmem
      exact (h l hl).1 hmem

def lineMax2048 : LineMax := ⟨2048, by decide, by decide⟩

theorem main_prints_iff_two :
    main lineMax2048 [0x61, newline, dot, newline] =
      some (kept [0x61, newline, dot, newline]).flatten := by
  have hkept : kept [0x61, newline, dot, newline] = [[0x61, newline]] := by decide
  apply (main_prints_iff lineMax2048 (by decide)).mpr
  rw [hkept]
  intro l hl
  obtain rfl := List.mem_singleton.mp hl
  refine ⟨by decide, fun j hj => ?_⟩
  rw [List.getElem?_eq_none]
  · exact (Option.some_ne_none dot).symm
  · show 2 ≤ j * 2047
    omega

/-- Of two percent signs one is printed. -/
theorem percent_not_printed :
    main lineMax2048 [percent, percent, newline] = some [percent, newline] ∧
      (kept [percent, percent, newline]).flatten = [percent, percent, newline] := by
  decide +kernel

-- with pieces of three characters the second piece of the line begins with a dot
example : main ⟨4, by decide, by decide⟩ [0x61, 0x62, 0x63, dot, 0x64, newline] =
    some [0x61, 0x62, 0x63] := by
  decide +kernel

end UnixLabs.Lab4
