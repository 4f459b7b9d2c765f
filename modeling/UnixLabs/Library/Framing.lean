import Mathlib.Data.List.Basic
import Mathlib.Tactic.Common

/-!
Frames in a byte stream with two reserved symbols.

An edge opens a frame, the next symbol is the frame's order, an escape quotes the
symbol after it and an unquoted edge closes the frame. A format may or may not
allow the order itself to be quoted. The de-framer is the meaning of a stream: it
has no result on a stream that is not made of frames.
-/

namespace UnixLabs.Library.Framing

variable {α : Type*} [DecidableEq α]

/-- The reserved symbols, and whether an escape quotes an order too. -/
structure Format (α : Type*) where
  edge : α
  escape : α
  edge_ne_escape : edge ≠ escape
  quotesOrder : Bool

inductive Mode (α : Type*)
  | idle
  | opened
  | openedQuoted
  | body (order : α)
  | bodyQuoted (order : α)
  deriving DecidableEq

/-- What a stream says: a frame of some order begins, or a payload symbol. -/
inductive Event (α : Type*)
  | frame (order : α)
  | byte (order value : α)
  deriving DecidableEq

namespace Format

variable (f : Format α)

/-- One symbol. Only an edge may stand between two frames, and the order of a
format that quotes orders is no plain edge. -/
def feed : Mode α → α → Option (Mode α × List (Event α))
  | .idle, c => if c = f.edge then some (.opened, []) else none
  | .opened, c =>
      if f.quotesOrder = true ∧ c = f.escape then some (.openedQuoted, [])
      else if f.quotesOrder = true ∧ c = f.edge then none
      else some (.body c, [.frame c])
  | .openedQuoted, c => some (.body c, [.frame c])
  | .body o, c =>
      if c = f.escape then some (.bodyQuoted o, [])
      else if c = f.edge then some (.idle, [])
      else some (.body o, [.byte o c])
  | .bodyQuoted o, c => some (.body o, [.byte o c])

def deframe : Mode α → List α → Option (Mode α × List (Event α))
  | m, [] => some (m, [])
  | m, c :: cs => do
      let (m, es) ← f.feed m c
      let (m, es') ← deframe m cs
      some (m, es ++ es')

@[simp] theorem deframe_nil (m : Mode α) : f.deframe m [] = some (m, []) := rfl

theorem deframe_singleton (m : Mode α) (c : α) : f.deframe m [c] = f.feed m c := by
  simp only [deframe, Option.bind_eq_bind, Option.bind_some, List.append_nil]
  cases f.feed m c <;> rfl

theorem deframe_append (m : Mode α) (xs ys : List α) :
    f.deframe m (xs ++ ys) = (f.deframe m xs).bind fun r =>
      (f.deframe r.1 ys).map fun r' => (r'.1, r.2 ++ r'.2) := by
  induction xs generalizing m with
  | nil =>
      rw [List.nil_append, deframe_nil, Option.bind_some]
      cases f.deframe m ys <;> rfl
  | cons c xs ih =>
      rw [List.cons_append, deframe, deframe]
      cases f.feed m c with
      | none => rfl
      | some r =>
          simp only [Option.bind_eq_bind, Option.bind_some, ih]
          cases f.deframe r.1 xs with
          | none => rfl
          | some r₁ =>
              simp only [Option.bind_some]
              cases f.deframe r₁.1 ys with
              | none => rfl
              | some r₂ => simp only [Option.map_some, Option.bind_some, List.append_assoc]

theorem deframe_trans {f : Format α} {m m' m'' : Mode α} {xs ys : List α}
    {es es' : List (Event α)} (h : f.deframe m xs = some (m', es))
    (h' : f.deframe m' ys = some (m'', es')) :
    f.deframe m (xs ++ ys) = some (m'', es ++ es') := by
  rw [deframe_append, h, Option.bind_some, h', Option.map_some]

/-- A reading of a whole is a reading of its front, and of the rest from there. -/
theorem deframe_split {f : Format α} {m m'' : Mode α} (xs ys : List α) {es : List (Event α)}
    (h : f.deframe m (xs ++ ys) = some (m'', es)) :
    ∃ m' es₁ es₂, f.deframe m xs = some (m', es₁) ∧ f.deframe m' ys = some (m'', es₂) ∧
      es = es₁ ++ es₂ := by
  rw [deframe_append, Option.bind_eq_some_iff] at h
  obtain ⟨⟨m', es₁⟩, h₁, h⟩ := h
  rw [Option.map_eq_some_iff] at h
  obtain ⟨⟨m₂, es₂⟩, h₂, h⟩ := h
  cases h
  exact ⟨m', es₁, es₂, h₁, h₂, rfl⟩

/-- After a front that is read, a reading of the whole is one of the rest. -/
theorem deframe_append_iff {f : Format α} {m m' : Mode α} {xs : List α} {es : List (Event α)}
    (h : f.deframe m xs = some (m', es)) (ys : List α) (es' : List (Event α)) :
    (∃ m'', f.deframe m (xs ++ ys) = some (m'', es ++ es')) ↔
      ∃ m'', f.deframe m' ys = some (m'', es') := by
  constructor
  · rintro ⟨m'', h'⟩
    obtain ⟨m₁, es₁, es₂, h₁, h₂, heq⟩ := deframe_split xs ys h'
    rw [h] at h₁
    cases h₁
    rw [List.append_cancel_left heq]
    exact ⟨m'', h₂⟩
  · rintro ⟨m'', h'⟩
    exact ⟨m'', deframe_trans h h'⟩

theorem deframe_ne_byte {f : Format α} {m m' : Mode α} {ys : List α} {o c : α}
    {es : List (Event α)} (hm : m = .idle ∨ m = .opened ∨ m = .openedQuoted) :
    f.deframe m ys ≠ some (m', .byte o c :: es) := by
  intro h
  induction ys generalizing m with
  | nil => cases h
  | cons y ys ih =>
      obtain ⟨m₁, es₁, es₂, hfeed, hrest, heq⟩ := deframe_split [y] ys h
      rw [deframe_singleton] at hfeed
      have hfirst : es₁ = [] ∧ (m₁ = .idle ∨ m₁ = .opened ∨ m₁ = .openedQuoted) ∨
          ∃ o', es₁ = [.frame o'] := by
        rcases hm with rfl | rfl | rfl <;> simp only [feed] at hfeed
        · split_ifs at hfeed
          cases hfeed
          exact .inl ⟨rfl, .inr (.inl rfl)⟩
        · split_ifs at hfeed <;> cases hfeed
          · exact .inl ⟨rfl, .inr (.inr rfl)⟩
          · exact .inr ⟨y, rfl⟩
        · cases hfeed
          exact .inr ⟨y, rfl⟩
      rcases hfirst with ⟨rfl, hm₁⟩ | ⟨o', rfl⟩
      · rw [List.nil_append] at heq
        exact ih hm₁ (heq ▸ hrest)
      · cases heq

/-! ### Writing frames -/

def quote (c : α) : List α := if c = f.escape ∨ c = f.edge then [f.escape, c] else [c]

theorem deframe_quote_body (o c : α) :
    f.deframe (.body o) (f.quote c) = some (.body o, [.byte o c]) := by
  unfold quote
  split_ifs with h
  · simp [deframe, feed]
  · rw [not_or] at h
    simp [deframe, feed, h.1, h.2]

theorem deframe_quote_opened (hf : f.quotesOrder = true) (o : α) :
    f.deframe .opened (f.quote o) = some (.body o, [.frame o]) := by
  unfold quote
  split_ifs with h
  · simp [deframe, feed, hf]
  · rw [not_or] at h
    simp [deframe, feed, hf, h.1, h.2]

theorem deframe_edge_idle : f.deframe .idle [f.edge] = some (.opened, []) := by
  simp [deframe, feed]

theorem deframe_edge_body (o : α) : f.deframe (.body o) [f.edge] = some (.idle, []) := by
  simp [deframe, feed, f.edge_ne_escape]

/-! ### Quoted texts -/

def encode (cs : List α) : List α := cs.flatMap f.quote

@[simp] theorem encode_nil : f.encode [] = [] := rfl

@[simp] theorem encode_cons (c : α) (cs : List α) :
    f.encode (c :: cs) = f.quote c ++ f.encode cs := List.flatMap_cons

/-- The text behind quoted symbols. An edge that is not quoted and an escape with
nothing behind it are no part of any. -/
def unquote : List α → Option (List α)
  | [] => some []
  | [c] => if c = f.escape ∨ c = f.edge then none else some [c]
  | c :: d :: cs =>
      if c = f.escape then (unquote cs).map (d :: ·)
      else if c = f.edge then none
      else (unquote (d :: cs)).map (c :: ·)

theorem unquote_plain {c : α} (hc : ¬(c = f.escape ∨ c = f.edge)) (cs : List α) :
    f.unquote (c :: cs) = (f.unquote cs).map (c :: ·) := by
  cases cs with
  | nil => simp [unquote, hc]
  | cons d cs =>
      rw [not_or] at hc
      rw [unquote, if_neg hc.1, if_neg hc.2]

theorem unquote_encode (cs : List α) : f.unquote (f.encode cs) = some cs := by
  induction cs with
  | nil => rfl
  | cons c cs ih =>
      rw [encode_cons, quote]
      split_ifs with hc
      · show f.unquote (f.escape :: c :: f.encode cs) = some (c :: cs)
        rw [unquote, if_pos rfl, ih, Option.map_some]
      · show f.unquote (c :: f.encode cs) = some (c :: cs)
        rw [f.unquote_plain hc, ih, Option.map_some]

theorem length_quote (c : α) :
    (f.quote c).length = if c = f.escape ∨ c = f.edge then 2 else 1 := by
  unfold quote
  split_ifs <;> rfl

theorem length_encode (cs : List α) :
    (f.encode cs).length = cs.length + cs.countP fun c => c = f.escape ∨ c = f.edge := by
  induction cs with
  | nil => rfl
  | cons c cs ih =>
      rw [encode_cons, List.length_append, ih, length_quote, List.length_cons, List.countP_cons]
      split_ifs <;> simp_all <;> omega

/-- How many symbols of a text can be written in `n` places. -/
def fitting : ℕ → List α → ℕ
  | _, [] => 0
  | n, c :: cs =>
      if (f.quote c).length ≤ n then fitting (n - (f.quote c).length) cs + 1 else 0

theorem fitting_of_le {n : ℕ} {c : α} (h : (f.quote c).length ≤ n) (cs : List α) :
    f.fitting n (c :: cs) = f.fitting (n - (f.quote c).length) cs + 1 := if_pos h

theorem fitting_of_lt {n : ℕ} {c : α} (h : n < (f.quote c).length) (cs : List α) :
    f.fitting n (c :: cs) = 0 := if_neg (Nat.not_le.mpr h)

theorem fitting_le (n : ℕ) (cs : List α) : f.fitting n cs ≤ cs.length := by
  induction cs generalizing n with
  | nil => exact Nat.zero_le _
  | cons c cs ih =>
      rcases Nat.lt_or_ge n (f.quote c).length with hfull | hroom
      · rw [f.fitting_of_lt hfull]
        exact Nat.zero_le _
      · rw [f.fitting_of_le hroom]
        exact Nat.succ_le_succ (ih _)

theorem le_fitting_iff {n k : ℕ} {cs : List α} (hk : k ≤ cs.length) :
    k ≤ f.fitting n cs ↔ (f.encode (cs.take k)).length ≤ n := by
  induction cs generalizing n k with
  | nil =>
      rw [List.length_nil, Nat.le_zero] at hk
      simp [hk]
  | cons c cs ih =>
      cases k with
      | zero => simp
      | succ k =>
          rw [List.length_cons, Nat.succ_le_succ_iff] at hk
          rw [List.take_succ_cons, encode_cons, List.length_append]
          rcases Nat.lt_or_ge n (f.quote c).length with hfull | hroom
          · rw [f.fitting_of_lt hfull]
            omega
          · rw [f.fitting_of_le hroom, Nat.succ_le_succ_iff, ih hk]
            omega

theorem encode_append (xs ys : List α) : f.encode (xs ++ ys) = f.encode xs ++ f.encode ys :=
  List.flatMap_append

theorem length_encode_take_le (cs : List α) (k : ℕ) :
    (f.encode (cs.take k)).length ≤ (f.encode cs).length := by
  conv_rhs => rw [← List.take_append_drop k cs, encode_append, List.length_append]
  exact Nat.le_add_right _ _

theorem fitting_min (n : ℕ) (cs : List α) :
    f.fitting (min (f.encode cs).length n) cs = f.fitting n cs := by
  have hsame : ∀ k ≤ cs.length,
      (k ≤ f.fitting (min (f.encode cs).length n) cs ↔ k ≤ f.fitting n cs) := by
    intro k hk
    rw [f.le_fitting_iff hk, f.le_fitting_iff hk, Nat.le_min]
    exact and_iff_right (f.length_encode_take_le cs k)
  apply Nat.le_antisymm
  · exact (hsame _ (f.fitting_le _ _)).mp (Nat.le_refl _)
  · exact (hsame _ (f.fitting_le _ _)).mpr (Nat.le_refl _)

end Format

/-! ### The payload of a stream -/

omit [DecidableEq α] in
def payload (es : List (Event α)) : List (α × α) :=
  es.filterMap fun
    | .frame _ => none
    | .byte o c => some (o, c)

omit [DecidableEq α] in
@[simp] theorem payload_append (es es' : List (Event α)) :
    payload (es ++ es') = payload es ++ payload es' := List.filterMap_append

omit [DecidableEq α] in
@[simp] theorem payload_frame (o : α) : payload [Event.frame o] = [] := rfl

omit [DecidableEq α] in
@[simp] theorem payload_byte (o c : α) : payload [Event.byte o c] = [(o, c)] := rfl

namespace Format

/-- The stream can be read, and this is its payload. -/
def Carries (f : Format α) (stream : List α) (accepted : List (α × α)) : Prop :=
  ∃ m es, f.deframe .idle stream = some (m, es) ∧ payload es = accepted

variable {f : Format α} {xs ys zs : List α} {accepted accepted' : List (α × α)}

theorem Carries.unique (h : f.Carries xs accepted) (h' : f.Carries xs accepted') :
    accepted = accepted' := by
  obtain ⟨m, es, hread, rfl⟩ := h
  obtain ⟨m', es', hread', rfl⟩ := h'
  rw [hread, Option.some_inj, Prod.mk.injEq] at hread'
  rw [hread'.2]

/-- What lies between two streams of the same payload has this payload. -/
theorem Carries.between (h : f.Carries xs accepted) (h' : f.Carries (xs ++ ys ++ zs) accepted) :
    f.Carries (xs ++ ys) accepted := by
  obtain ⟨m₁, es₁, hread₁, rfl⟩ := h
  obtain ⟨m', es', hread', hpayload⟩ := h'
  obtain ⟨m₂, es₂, es₃, hread₂, -, rfl⟩ := deframe_split (xs ++ ys) zs hread'
  obtain ⟨m₁', es₁', es₄, hread₁', -, rfl⟩ := deframe_split xs ys hread₂
  rw [hread₁, Option.some_inj, Prod.mk.injEq] at hread₁'
  obtain ⟨-, rfl⟩ := hread₁'
  refine ⟨m₂, es₁ ++ es₄, hread₂, ?_⟩
  rw [payload_append, payload_append, List.append_assoc, List.append_right_eq_self,
    List.append_eq_nil_iff] at hpayload
  rw [payload_append, hpayload.1, List.append_nil]

theorem carries_escape {o : α} {es : List (Event α)}
    (h : f.deframe .idle xs = some (.body o, es)) : f.Carries (xs ++ [f.escape]) (payload es) := by
  refine ⟨.bodyQuoted o, es ++ [], deframe_trans h ?_, by rw [List.append_nil]⟩
  rw [deframe_singleton, feed, if_pos rfl]

end Format

/-! ### Symbols outside frames -/

/-- Where a symbol stands: between frames, in one, or behind an escape. -/
inductive Standing
  | outside
  | inside
  | quoted
  deriving DecidableEq

namespace Format

variable (f : Format α)

def advance : Standing → α → Standing
  | .outside, c => if c = f.edge then .inside else .outside
  | .inside, c => if c = f.escape then .quoted else if c = f.edge then .outside else .inside
  | .quoted, _ => .inside

def standing (m : Standing) (cs : List α) : Standing := cs.foldl f.advance m

/-- Between frames there are only the edges that open them. -/
def OnlyFrames : Standing → List α → Prop
  | _, [] => True
  | m, c :: cs => (m = .outside → c = f.edge) ∧ OnlyFrames (f.advance m c) cs

@[simp] theorem standing_nil (m : Standing) : f.standing m [] = m := rfl

theorem standing_append (m : Standing) (xs ys : List α) :
    f.standing m (xs ++ ys) = f.standing (f.standing m xs) ys := List.foldl_append

theorem onlyFrames_append (m : Standing) (xs ys : List α) :
    f.OnlyFrames m (xs ++ ys) ↔ f.OnlyFrames m xs ∧ f.OnlyFrames (f.standing m xs) ys := by
  induction xs generalizing m with
  | nil => exact (and_iff_right trivial).symm
  | cons c xs ih =>
      rw [List.cons_append, OnlyFrames, OnlyFrames, ih, and_assoc]
      rfl

end Format

end UnixLabs.Library.Framing
