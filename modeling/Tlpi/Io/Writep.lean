import Mathlib.Data.List.Basic
import Mathlib.Tactic.IntervalCases
import Tlpi.Lib.Exec
import Tlpi.Machine

namespace tlpi.mylib

/-- One iteration of the loop of `writep`, on the file and `total_written`. -/
def writep_body {D : Type} (write : D → List UInt8 → D × Int) (buf : List UInt8) (count : Nat)
    (state : D × Nat) : Exec (Flow (D × Nat) (D × Int)) :=
  if state.2 < count then
    -- buf is passed as it is: the pointer never moves past what was written
    let r := write state.1 (buf.take (size_sub count state.2))
    if r.2 < 0 then .ok (.done (r.1, -1))
    else .ok (.cont (r.1, size_add state.2 r.2.toNat))
  else .ok (.done (state.1, to_signed state.2))

/-- `writep`, over whatever `write` does to the file behind the descriptor. The fuel
    is needed because a `write` that keeps returning 0 keeps the loop going. -/
def writep {D : Type} (write : D → List UInt8 → D × Int) (fuel : Nat) (file : D) (buf : List UInt8)
    (count : Nat) : Exec (D × Int) :=
  loop (writep_body write buf count) fuel (file, 0)

/-- A descriptor whose `write` calls accept what a schedule says: the bytes accepted
    so far, in order, and the number of calls made. -/
structure Sink where
  accepted : List UInt8
  calls : Nat

def Sink.write (accept : Nat → Nat → Nat) (file : Sink) (bytes : List UInt8) : Sink × Int :=
  let n := accept file.calls bytes.length
  ({ accepted := file.accepted ++ bytes.take n, calls := file.calls + 1 }, n)

/-- Every call for at least one byte accepts between one byte and all of them. -/
def Progressing (accept : Nat → Nat → Nat) : Prop :=
  ∀ call requested, 0 < requested → 1 ≤ accept call requested ∧ accept call requested ≤ requested

section Schedule

variable (accept : Nat → Nat → Nat) (buf : List UInt8)

/-- How many bytes have been accepted before the given call. -/
def offset : Nat → Nat
  | 0 => 0
  | call + 1 =>
    if offset call < buf.length then offset call + accept call (buf.length - offset call)
    else offset call

/-- The bytes that reach the file before the given call. -/
def sent : Nat → List UInt8
  | 0 => []
  | call + 1 =>
    if offset accept buf call < buf.length then
      sent call ++ buf.take (accept call (buf.length - offset accept buf call))
    else sent call

variable {accept}

theorem offset_le (hsched : Progressing accept) (call : Nat) : offset accept buf call ≤ buf.length := by
  induction call with
  | zero => exact Nat.zero_le _
  | succ call ih =>
    rw [offset]
    split
    · have := (hsched call (buf.length - offset accept buf call) (by omega)).2
      omega
    · exact ih

theorem offset_ge (hsched : Progressing accept) (call : Nat) :
    min call buf.length ≤ offset accept buf call := by
  induction call with
  | zero => simp
  | succ call ih =>
    rw [offset]
    split
    · have := (hsched call (buf.length - offset accept buf call) (by omega)).1
      omega
    · omega

theorem sent_length (hsched : Progressing accept) (call : Nat) :
    (sent accept buf call).length = offset accept buf call := by
  induction call with
  | zero => rfl
  | succ call ih =>
    rw [sent, offset]
    split
    · have := (hsched call (buf.length - offset accept buf call) (by omega)).2
      rw [List.length_append, ih, List.length_take]
      omega
    · exact ih

theorem sent_prefix_succ (call : Nat) : sent accept buf call <+: sent accept buf (call + 1) := by
  rw [sent]
  split
  · exact List.prefix_append _ _
  · exact List.prefix_rfl

theorem sent_prefix {first second : Nat} (h : first ≤ second) :
    sent accept buf first <+: sent accept buf second := by
  induction h with
  | refl => exact List.prefix_rfl
  | step _ ih => exact ih.trans (sent_prefix_succ buf _)

/-- The bytes that reach the file are the buffer's own as long as every call's
    stretch of the buffer repeats the beginning of the buffer. -/
def Repeats (accept : Nat → Nat → Nat) (buf : List UInt8) : Prop :=
  ∀ call, offset accept buf call < buf.length →
    (buf.drop (offset accept buf call)).take (accept call (buf.length - offset accept buf call)) =
      buf.take (accept call (buf.length - offset accept buf call))

theorem sent_of_repeats (hrep : Repeats accept buf) (call : Nat) :
    sent accept buf call = buf.take (offset accept buf call) := by
  induction call with
  | zero => simp [sent, offset]
  | succ call ih =>
    rw [sent, offset]
    split
    · rename_i hlt
      rw [ih, ← hrep call hlt, List.take_add]
    · exact ih

theorem repeats_of_sent (hsched : Progressing accept) (hsent : sent accept buf buf.length = buf) :
    Repeats accept buf := by
  intro call hlt
  have hcall : call + 1 ≤ buf.length := by
    have := offset_ge buf hsched call
    omega
  have hprefix (k : Nat) (hk : k ≤ buf.length) : sent accept buf k = buf.take (offset accept buf k) := by
    have h : sent accept buf k <+: sent accept buf buf.length := sent_prefix buf hk
    rw [hsent, List.prefix_iff_eq_take, sent_length buf hsched] at h
    exact h
  have hstep := hprefix (call + 1) hcall
  rw [sent, offset, if_pos hlt, if_pos hlt, hprefix call (by omega), List.take_add] at hstep
  exact (List.append_cancel_left hstep).symm

theorem sent_full {first : Nat} (hfull : offset accept buf first = buf.length) {second : Nat}
    (h : first ≤ second) :
    offset accept buf second = buf.length ∧ sent accept buf second = sent accept buf first := by
  induction h with
  | refl => exact ⟨hfull, rfl⟩
  | @step call _ ih =>
    obtain ⟨hoffset, hsent⟩ := ih
    have hnot : ¬ offset accept buf call < buf.length := by omega
    exact ⟨by rw [offset, if_neg hnot, hoffset], by rw [sent, if_neg hnot, hsent]⟩

/-- Once the buffer's length has been accepted, nothing depends on how many calls that took. -/
theorem sent_eq_of_full (hsched : Progressing accept) {call : Nat}
    (hfull : offset accept buf call = buf.length) : sent accept buf call = sent accept buf buf.length := by
  have hlen : offset accept buf buf.length = buf.length := by
    have hge := offset_ge buf hsched buf.length
    have hle := offset_le buf hsched buf.length
    omega
  obtain h | h := Nat.le_total call buf.length
  · exact (sent_full buf hfull h).2.symm
  · exact (sent_full buf hlen h).2

/-- One iteration of `writep` is one more call of the schedule. -/
theorem sink_write_sent (hsched : Progressing accept) (hcount : buf.length < 2 ^ 63) {call : Nat}
    (hlt : offset accept buf call < buf.length) :
    Sink.write accept { accepted := sent accept buf call, calls := call }
        (buf.take (size_sub buf.length (offset accept buf call))) =
      ({ accepted := sent accept buf (call + 1), calls := call + 1 },
        (accept call (buf.length - offset accept buf call) : Int)) := by
  have hbound := (hsched call (buf.length - offset accept buf call) (by omega)).2
  rw [size_sub_eq hlt.le (by omega)]
  simp [Sink.write, sent, hlt, List.take_take, Nat.min_eq_left hbound]

theorem writep_from (hsched : Progressing accept) (hcount : buf.length < 2 ^ 63) (fuel call : Nat)
    (hfuel : buf.length - offset accept buf call < fuel) :
    ∃ calls, loop (writep_body (Sink.write accept) buf buf.length) fuel
        ({ accepted := sent accept buf call, calls := call }, offset accept buf call) =
      .ok ({ accepted := sent accept buf buf.length, calls }, (buf.length : Int)) := by
  induction fuel generalizing call with
  | zero => omega
  | succ fuel ih =>
    by_cases hlt : offset accept buf call < buf.length
    · have hbound := hsched call (buf.length - offset accept buf call) (by omega)
      have hnext : offset accept buf (call + 1) =
          offset accept buf call + accept call (buf.length - offset accept buf call) := by
        rw [offset, if_pos hlt]
      obtain ⟨calls, hrun⟩ := ih (call + 1) (by omega)
      have hbody : writep_body (Sink.write accept) buf buf.length
          ({ accepted := sent accept buf call, calls := call }, offset accept buf call) =
          .ok (.cont ({ accepted := sent accept buf (call + 1), calls := call + 1 },
            offset accept buf (call + 1))) := by
        simp only [writep_body, if_pos hlt, sink_write_sent buf hsched hcount hlt]
        rw [if_neg (by omega), Int.toNat_natCast, size_add_eq (by omega), hnext]
      exact ⟨calls, by rw [loop_cont hbody, hrun]⟩
    · have hfull : offset accept buf call = buf.length := by
        have := offset_le buf hsched call
        omega
      have hbody : writep_body (Sink.write accept) buf buf.length
          ({ accepted := sent accept buf call, calls := call }, offset accept buf call) =
          .ok (.done ({ accepted := sent accept buf call, calls := call }, (buf.length : Int))) := by
        simp [writep_body, hfull, to_signed_eq hcount]
      exact ⟨call, by rw [loop_done hbody, sent_eq_of_full buf hsched hfull]⟩

/-- What `writep` does under partial writes: it always returns `count`, after sending
    the beginning of the buffer again and again. -/
theorem writep_scheduled (hsched : Progressing accept) (hcount : buf.length < 2 ^ 63) (fuel : Nat)
    (hfuel : buf.length < fuel) :
    ∃ calls, writep (Sink.write accept) fuel { accepted := [], calls := 0 } buf buf.length =
      .ok ({ accepted := sent accept buf buf.length, calls }, (buf.length : Int)) :=
  writep_from buf hsched hcount fuel 0 (by simpa [offset] using hfuel)

/-- `writep` returns `count` and the file has accepted exactly the buffer, if and only if
    every stretch of the buffer that one call accepts repeats the buffer's beginning. -/
theorem writep_delivers_iff (hsched : Progressing accept) (hcount : buf.length < 2 ^ 63) (fuel : Nat)
    (hfuel : buf.length < fuel) :
    (∃ file, writep (Sink.write accept) fuel { accepted := [], calls := 0 } buf buf.length =
        .ok (file, (buf.length : Int)) ∧ file.accepted = buf) ↔ Repeats accept buf := by
  obtain ⟨calls, hrun⟩ := writep_scheduled buf hsched hcount fuel hfuel
  rw [hrun]
  constructor
  · rintro ⟨file, hfile, haccepted⟩
    simp only [Except.ok.injEq, Prod.mk.injEq, and_true] at hfile
    subst file
    exact repeats_of_sent buf hsched haccepted
  · intro hrep
    refine ⟨_, rfl, ?_⟩
    have hoffset : offset accept buf buf.length = buf.length := by
      have hge := offset_ge buf hsched buf.length
      have hle := offset_le buf hsched buf.length
      omega
    simpa [hoffset] using sent_of_repeats buf hrep buf.length

end Schedule

/-- A kernel that takes one byte per call. -/
def byteByByte (_call _requested : Nat) : Nat := 1

theorem byteByByte_progressing : Progressing byteByByte := fun _ _ hpos => ⟨le_refl 1, hpos⟩

/-- Taken byte by byte, a buffer of equal bytes is delivered. -/
theorem writep_delivers_constant :
    ∃ file, writep (Sink.write byteByByte) 3 { accepted := [], calls := 0 } [7, 7] 2 =
        .ok (file, (2 : Int)) ∧ file.accepted = [7, 7] := by
  apply (writep_delivers_iff [7, 7] byteByByte_progressing (by decide) 3 (by decide)).mpr
  intro call hlt
  have hcall : call < 2 := by
    have hge := offset_ge [7, 7] byteByByte_progressing call
    simp only [List.length_cons, List.length_nil] at hge hlt
    omega
  interval_cases call <;> decide

/-- Taken byte by byte, the two bytes 1, 2 arrive as 1, 1. -/
theorem writep_repeats_first_byte :
    ¬ ∃ file, writep (Sink.write byteByByte) 3 { accepted := [], calls := 0 } [1, 2] 2 =
        .ok (file, (2 : Int)) ∧ file.accepted = [1, 2] := by
  have hrun : writep (Sink.write byteByByte) 3 { accepted := [], calls := 0 } [1, 2] 2 =
      .ok ({ accepted := [1, 1], calls := 2 }, (2 : Int)) := rfl
  rintro ⟨file, hfile, haccepted⟩
  rw [hrun] at hfile
  simp only [Except.ok.injEq, Prod.mk.injEq, and_true] at hfile
  subst file
  exact absurd haccepted (by decide)

/-- A `write` that takes all it is given is called once, or not at all for a count of 0. -/
theorem writep_count {D : Type} {write : D → List UInt8 → D × Int} {file next : D} {buf : List UInt8}
    {count : Nat} (fuel : Nat) (hcount : count < 2 ^ 63) (hzero : count = 0 → next = file)
    (hwrite : count ≠ 0 → write file (buf.take count) = (next, (count : Int))) :
    writep write (fuel + 2) file buf count = .ok (next, (count : Int)) := by
  unfold writep
  by_cases hpos : count = 0
  · rw [hzero hpos]
    subst hpos
    exact loop_done (by simp [writep_body, to_signed])
  · have hbody : writep_body write buf count (file, 0) = .ok (.cont (next, count)) := by
      simp [writep_body, Nat.pos_of_ne_zero hpos,
        size_sub_eq (Nat.zero_le _) (show count < 2 ^ 64 by omega), hwrite hpos,
        size_add_eq (show 0 + count < 2 ^ 64 by omega)]
    rw [loop_cont hbody]
    exact loop_done (by simp [writep_body, to_signed_eq hcount])

/-- The same for the whole buffer. -/
theorem writep_full {D : Type} {write : D → List UInt8 → D × Int} {file next : D} {buf : List UInt8}
    (fuel : Nat) (hcount : buf.length < 2 ^ 63) (hempty : buf = [] → next = file)
    (hwrite : buf ≠ [] → write file buf = (next, (buf.length : Int))) :
    writep write (fuel + 2) file buf buf.length = .ok (next, (buf.length : Int)) := by
  apply writep_count fuel hcount (fun h => hempty (List.eq_nil_of_length_eq_zero h))
  intro h
  rw [List.take_length]
  exact hwrite fun hnil => h (by rw [hnil]; rfl)

end tlpi.mylib
