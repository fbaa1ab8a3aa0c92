import OpenData.Lib.Bytes

/-!
# Decoding at a moving offset

A decoder that walks a byte buffer with a mutable offset is a computation in `Cursor ε`: a state
monad over the offset with the exits of `Fault ε`. A decoder that fails keeps the offset it had
reached, as a `&mut usize` argument does.
-/

namespace OpenData.Lib

open List

abbrev Cursor (ε : Type) := ExceptT (Fault ε) (StateM Nat)

variable {off off' n : Nat} {bs rest : Bytes}

variable {ε α β : Type}

def runAt (p : Cursor ε α) (off : Nat) : Except (Fault ε) α × Nat :=
  StateT.run (m := Id) (ExceptT.run p) off

/-- `data[*offset..*offset + n]`, the offset unchanged. -/
def sliceHere (data : Bytes) (n : Nat) : Cursor ε Bytes := do
  let off ← get
  liftM (slice (ε := ε) data off (off + n))

def skip (n : Nat) : Cursor ε Unit := modify (· + n)

/-- Reads `w` bytes as a little-endian number and moves past them. -/
def readLe (data : Bytes) (w : Nat) : Cursor ε Nat := do
  let bs ← sliceHere data w
  skip w
  pure (ofLe bs)

/-- Returns the error `e` unless `n` more bytes lie below `limit`. -/
def require (n limit : Nat) (e : ε) : Cursor ε Unit := do
  let off ← get
  if off + n > limit then throw (.err e)

theorem runAt_pure (a : α) (off : Nat) : runAt (pure a : Cursor ε α) off = (.ok a, off) := rfl

variable {a : α} {f : α → Cursor ε β} {p : Cursor ε α}

theorem runAt_bind_ok (h : runAt p off = (.ok a, off')) :
    runAt (p >>= f) off = runAt (f a) off' := by
  unfold runAt at h ⊢
  rw [ExceptT.run_bind, StateT.run_bind, h]
  rfl

theorem runAt_bind_error {e} (h : runAt p off = (.error e, off')) :
    runAt (p >>= f) off = (.error e, off') := by
  unfold runAt at h ⊢
  rw [ExceptT.run_bind, StateT.run_bind, h]
  rfl

theorem runAt_get (off : Nat) : runAt (get : Cursor ε Nat) off = (.ok off, off) := rfl

theorem runAt_set (n off : Nat) : runAt (set n : Cursor ε PUnit) off = (.ok ⟨⟩, n) := rfl

theorem runAt_skip (n off : Nat) : runAt (skip n : Cursor ε Unit) off = (.ok (), off + n) := rfl

theorem runAt_sliceHere (data : Bytes) (n off : Nat) :
    runAt (sliceHere data n : Cursor ε Bytes) off = (slice data off (off + n), off) := by
  rw [sliceHere, runAt_bind_ok (runAt_get off)]
  cases slice (ε := ε) data off (off + n) <;> rfl

theorem runAt_require_of_le {limit} (e : ε) (h : off + n ≤ limit) :
    runAt (require n limit e : Cursor ε Unit) off = (.ok (), off) := by
  rw [require, runAt_bind_ok (runAt_get off), if_neg (by omega)]
  rfl

theorem runAt_require_of_lt {limit} (e : ε) (h : limit < off + n) :
    runAt (require n limit e : Cursor ε Unit) off = (.error (.err e), off) := by
  rw [require, runAt_bind_ok (runAt_get off), if_pos (by omega)]
  rfl

/-! ### Specifications of decoders -/

/-- Wherever `data` holds `bs` below `limit`, the decoder returns `a` and moves past `bs`. -/
def Parses (data : Bytes) (limit : Nat) (p : Cursor ε α) (bs : Bytes) (a : α) : Prop :=
  ∀ (off : Nat) (rest : Bytes), off ≤ data.length → data.drop off = bs ++ rest →
    off + bs.length ≤ limit → runAt p off = (.ok a, off + bs.length)

variable {data : Bytes} {limit : Nat}

theorem add_length_le_of_drop (hoff : off ≤ data.length) (hdrop : data.drop off = bs ++ rest) :
    off + bs.length ≤ data.length := by
  have h := congrArg List.length hdrop
  simp only [length_drop, length_append] at h
  omega

theorem drop_add_length (hdrop : data.drop off = bs ++ rest) :
    data.drop (off + bs.length) = rest := by
  rw [← drop_drop, hdrop, drop_left]

theorem Parses.pure (a : α) : Parses data limit (pure a : Cursor ε α) [] a := by
  intro off rest _ _ _
  exact runAt_pure a off

theorem Parses.bind {bs' b} (hp : Parses data limit p bs a)
    (hf : Parses data limit (f a) bs' b) : Parses data limit (p >>= f) (bs ++ bs') b := by
  intro off rest hoff hdrop hlim
  rw [append_assoc] at hdrop
  rw [length_append] at hlim ⊢
  have h1 := hp off (bs' ++ rest) hoff hdrop (by omega)
  have h2 := hf (off + bs.length) rest (add_length_le_of_drop hoff hdrop)
    (drop_add_length hdrop) (by omega)
  rw [runAt_bind_ok h1, h2, Nat.add_assoc]

theorem runAt_sliceHere_of_drop (hoff : off ≤ data.length) (hdrop : data.drop off = bs ++ rest)
    (hn : n = bs.length) : runAt (sliceHere data n : Cursor ε Bytes) off = (.ok bs, off) := by
  rw [runAt_sliceHere, slice_of_drop hoff hdrop (by rw [hn])]

theorem runAt_readLe {w} (hn : n < 256 ^ w) (hoff : off ≤ data.length)
    (hdrop : data.drop off = toLe w n ++ rest) :
    runAt (readLe data w : Cursor ε Nat) off = (.ok n, off + w) := by
  rw [readLe, runAt_bind_ok (runAt_sliceHere_of_drop hoff hdrop (by simp)),
    runAt_bind_ok (runAt_skip w off), ofLe_toLe_of_lt hn]
  exact runAt_pure n (off + w)

theorem parses_readLe {w} (hn : n < 256 ^ w) :
    Parses data limit (readLe data w : Cursor ε Nat) (toLe w n) n := by
  intro off rest hoff hdrop _
  rw [runAt_readLe hn hoff hdrop, length_toLe]

theorem parses_require {e} (hn : n ≤ bs.length) (hp : Parses data limit p bs a) :
    Parses data limit (require n limit e >>= fun _ => p) bs a := by
  intro off rest hoff hdrop hlim
  rw [runAt_bind_ok (runAt_require_of_le e (by omega))]
  exact hp off rest hoff hdrop hlim

theorem parses_sliceHere {p : Bytes → Cursor ε α} {bs'} (hn : n = bs.length)
    (hp : Parses data limit (skip n >>= fun _ => p bs) (bs ++ bs') a) :
    Parses data limit (sliceHere data n >>= fun raw => skip n >>= fun _ => p raw) (bs ++ bs')
      a := by
  intro off rest hoff hdrop hlim
  have hdrop' := hdrop
  rw [append_assoc] at hdrop'
  rw [runAt_bind_ok (runAt_sliceHere_of_drop hoff hdrop' hn)]
  exact hp off rest hoff hdrop hlim

/-! ### Decoders on arbitrary bytes -/

/-- At the offset the decoder does not panic, and what it returns satisfies `Q`. -/
def Ensures (p : Cursor ε α) (off : Nat) (Q : α → Nat → Prop) : Prop :=
  (runAt p off).1 ≠ .error .panic ∧ ∀ a off', runAt p off = (.ok a, off') → Q a off'

section
variable {p : Cursor ε α} {off : Nat} {Q : α → Nat → Prop}

theorem ensures_of_runAt_ok (h : runAt p off = (.ok a, off')) (hQ : Q a off') :
    Ensures p off Q := by
  refine ⟨by simp [h], ?_⟩
  intro b off'' h'
  rw [h] at h'
  cases h'
  exact hQ

theorem ensures_of_runAt_err {e} (h : runAt p off = (.error (.err e), off')) :
    Ensures p off Q := by
  refine ⟨by simp [h], ?_⟩
  intro b off'' h'
  rw [h] at h'
  cases h'

theorem Ensures.bind {R : β → Nat → Prop} (hp : Ensures p off Q)
    (hf : ∀ a off', Q a off' → Ensures (f a) off' R) : Ensures (p >>= f) off R := by
  cases hrun : runAt p off with
  | mk r off' =>
    cases r with
    | ok a =>
      have hstep := hf a off' (hp.2 a off' hrun)
      rw [Ensures, runAt_bind_ok hrun]
      exact hstep
    | error e =>
      cases e with
      | err => exact ensures_of_runAt_err (runAt_bind_error hrun)
      | panic => exact absurd (by rw [hrun]) hp.1

theorem Ensures.pure (h : Q a off) : Ensures (pure a : Cursor ε α) off Q :=
  ensures_of_runAt_ok (runAt_pure a off) h

theorem ensures_throw (e : ε) : Ensures (throw (.err e) : Cursor ε α) off Q := by
  have hrun : runAt (throw (.err e) : Cursor ε α) off = (.error (.err e), off) := rfl
  exact ensures_of_runAt_err hrun

theorem ensures_require (e : ε) : Ensures (require n limit e : Cursor ε Unit) off
      fun _ off' => off' = off ∧ off + n ≤ limit := by
  by_cases h : off + n ≤ limit
  · exact ensures_of_runAt_ok (runAt_require_of_le e h) ⟨rfl, h⟩
  · exact ensures_of_runAt_err (runAt_require_of_lt e (by omega))

theorem ensures_get : Ensures (get : Cursor ε Nat) off fun n off' => n = off ∧ off' = off :=
  ensures_of_runAt_ok (runAt_get off) ⟨rfl, rfl⟩

theorem ensures_set (n : Nat) : Ensures (set n : Cursor ε PUnit) off fun _ off' => off' = n :=
  ensures_of_runAt_ok (runAt_set n off) rfl

theorem ensures_skip (n : Nat) :
    Ensures (skip n : Cursor ε Unit) off fun _ off' => off' = off + n :=
  ensures_of_runAt_ok (runAt_skip n off) rfl

theorem ensures_sliceHere (h : off + n ≤ data.length) :
    Ensures (sliceHere data n : Cursor ε Bytes) off fun bs off' =>
      off' = off ∧ bs.length = n ∧ data.drop off = bs ++ data.drop (off + n) := by
  have hlen : ((data.drop off).take n).length = n := by
    rw [length_take, length_drop]
    omega
  have hsplit : data.drop off = (data.drop off).take n ++ data.drop (off + n) := by
    rw [← drop_drop, take_append_drop]
  have hrun : runAt (sliceHere data n : Cursor ε Bytes) off
      = (.ok ((data.drop off).take n), off) := by
    rw [runAt_sliceHere, slice, if_pos ⟨by omega, h⟩, Nat.add_sub_cancel_left]
  exact ensures_of_runAt_ok hrun ⟨rfl, hlen, hsplit⟩

theorem ensures_readLe {w} (h : off + w ≤ data.length) :
    Ensures (readLe data w : Cursor ε Nat) off fun v off' =>
      off' = off + w ∧ v < 256 ^ w ∧ data.drop off = toLe w v ++ data.drop (off + w) := by
  refine Ensures.bind (ensures_sliceHere h) ?_
  rintro bs _ ⟨rfl, hlen, hsplit⟩
  refine Ensures.bind (ensures_skip w) ?_
  rintro _ _ rfl
  refine Ensures.pure ⟨rfl, hlen ▸ ofLe_lt bs, ?_⟩
  have hbytes : toLe w (ofLe bs) = bs := hlen ▸ toLe_ofLe bs
  rw [hbytes]
  exact hsplit

end

end OpenData.Lib
