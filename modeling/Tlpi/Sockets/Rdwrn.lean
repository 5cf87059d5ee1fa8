import Tlpi.Io.Stream
import Tlpi.Lib.Calls

namespace tlpi.rdwrn

/-- A descriptor to write to: the bytes that it has accepted, and what the next calls meet. A
    call accepts no more bytes than it meets room for, and later calls accept everything. -/
structure Outlet where
  accepted : List UInt8
  room : List Arrival
deriving DecidableEq

/-- `write(fd, buf, count)` with these bytes. -/
def Outlet.write (fd : Outlet) (bytes : List UInt8) : Outlet × Except Errno Nat :=
  match fd.room with
  | .error errno :: rest => ({ fd with room := rest }, .error errno)
  | .bytes most :: rest =>
    (⟨fd.accepted ++ bytes.take (min bytes.length most), rest⟩, .ok (min bytes.length most))
  | [] => (⟨fd.accepted ++ bytes, []⟩, .ok bytes.length)

/-- One iteration of the loop of `readn`, on the descriptor and the bytes in the buffer. -/
def readn_body (n : Nat) (state : Stream × List UInt8) :
    Exec (Flow (Stream × List UInt8) (Stream × Except Errno Nat × List UInt8)) :=
  if state.2.length < n then
    match state.1.read (n - state.2.length) with
    | (fd, .ok []) => .ok (.done (fd, .ok state.2.length, state.2))
    | (fd, .ok bytes) => .ok (.cont (fd, state.2 ++ bytes))
    | (fd, .error errno) =>
      if errno = EINTR then .ok (.cont (fd, state.2)) else .ok (.done (fd, .error errno, state.2))
  else .ok (.done (state.1, .ok state.2.length, state.2))

/-- `readn(fd, buffer, n)`, with the bytes that it has stored in the buffer. -/
def readn (fuel : Nat) (fd : Stream) (n : Nat) : Exec (Stream × Except Errno Nat × List UInt8) :=
  loop (readn_body n) fuel (fd, [])

/-- One iteration of the loop of `writen`, on the descriptor and `totWritten`. A `write` that
    returns 0 is taken for an error, whatever `errno` is. -/
def writen_body (buffer : List UInt8) (state : Outlet × Nat) :
    Exec (Flow (Outlet × Nat) (Outlet × Option Nat)) :=
  if state.2 < buffer.length then
    match state.1.write (buffer.drop state.2) with
    | (fd, .error errno) => if errno = EINTR then .ok (.cont (fd, state.2)) else .ok (.done (fd, none))
    | (fd, .ok 0) => .ok (.done (fd, none))
    | (fd, .ok numWritten) => .ok (.cont (fd, state.2 + numWritten))
  else .ok (.done (state.1, some state.2))

/-- `writen(fd, buffer, n)` on a whole buffer. Nothing is returned in place of -1. -/
def writen (fuel : Nat) (fd : Outlet) (buffer : List UInt8) : Exec (Outlet × Option Nat) :=
  loop (writen_body buffer) fuel (fd, 0)

/-- The only errors are interrupted calls, and every other call accepts something. -/
def Outlet.Progressing (fd : Outlet) : Prop :=
  (∀ errno, .error errno ∈ fd.room → errno = EINTR) ∧ .bytes 0 ∉ fd.room

section Readn

variable {fd : Stream} {n fuel : Nat}

theorem loop_readn (hfd : fd.Interruptible) (hfuel : fd.calls_left < fuel) {got : List UInt8}
    (hgot : got.length ≤ n) :
    ∃ fd', loop (readn_body n) fuel (fd, got) =
        .ok (fd', .ok (got ++ fd.left.take (n - got.length)).length, got ++ fd.left.take (n - got.length)) ∧
      fd'.left = fd.left.drop (n - got.length) ∧ fd'.Interruptible ∧ fd'.calls_left ≤ fd.calls_left := by
  induction fuel generalizing fd got with
  | zero => omega
  | succ fuel ih =>
    by_cases hfull : got.length < n
    · obtain ⟨errno, rest, harrivals, hread⟩ | ⟨bytes, left, rest, hleft, hle, hnil, hrest, hread⟩ :=
        fd.read_cases (Nat.sub_pos_of_lt hfull)
      · obtain ⟨rfl, hfd', hshort⟩ := hfd.interrupted harrivals
        have hbody : readn_body n (fd, got) = .ok (.cont ({ fd with arrivals := rest }, got)) := by
          rw [readn_body, if_pos hfull, hread]
          simp only [if_true]
        obtain ⟨fd', hloop, hleft, hfd'', hcalls⟩ := ih hfd' (by omega) hgot
        exact ⟨fd', by rw [loop_cont hbody, hloop], hleft, hfd'', by omega⟩
      · have hlen := hrest.length_le
        have hfd' := hfd.suffix hrest left
        cases bytes with
        | nil =>
          have hempty := hnil rfl
          rw [hempty, List.nil_append] at hleft
          refine ⟨⟨left, rest⟩, ?_, ?_, hfd', ?_⟩
          · refine loop_done ?_
            rw [readn_body, if_pos hfull, hread, hempty, List.take_nil, List.append_nil]
          · rw [← hleft, hempty, List.drop_nil]
          · simp only [Stream.calls_left, hempty, ← hleft]
            omega
        | cons c bytes =>
          have hbody : readn_body n (fd, got) = .ok (.cont (⟨left, rest⟩, got ++ c :: bytes)) := by
            rw [readn_body, if_pos hfull, hread]
          have hcalls : (⟨left, rest⟩ : Stream).calls_left + 1 ≤ fd.calls_left := by
            simp only [Stream.calls_left, hleft, List.length_append, List.length_cons]
            omega
          have hgot' : (got ++ c :: bytes).length ≤ n := by
            rw [List.length_append]
            omega
          obtain ⟨fd', hloop, hleft', hfd'', hcalls'⟩ := ih hfd' (by omega) hgot'
          -- what is still to be read after these bytes
          have hrest' : n - (got ++ c :: bytes).length = n - got.length - (c :: bytes).length := by
            rw [List.length_append, Nat.sub_add_eq]
          have htake : fd.left.take (n - got.length) =
              c :: bytes ++ left.take (n - (got ++ c :: bytes).length) := by
            rw [hleft, List.take_append, List.take_of_length_le hle, hrest']
          refine ⟨fd', ?_, ?_, hfd'', by omega⟩
          · rw [loop_cont hbody, hloop, htake, List.append_assoc]
          · rw [hleft', hleft, List.drop_append, List.drop_eq_nil_of_le hle, List.nil_append, hrest']
    · have hzero : n - got.length = 0 := by omega
      refine ⟨fd, ?_, by rw [hzero, List.drop_zero], hfd, Nat.le_refl _⟩
      refine loop_done ?_
      rw [readn_body, if_neg hfull, hzero, List.take_zero, List.append_nil]

/-- `readn` takes all bytes that it is asked for, or all up to the end of file. -/
theorem readn_bytes (hfd : fd.Interruptible) (hfuel : fd.calls_left < fuel) (n : Nat) :
    ∃ fd', readn fuel fd n = .ok (fd', .ok (fd.left.take n).length, fd.left.take n) ∧
      fd'.left = fd.left.drop n ∧ fd'.Interruptible ∧ fd'.calls_left ≤ fd.calls_left := by
  have hgot : ([] : List UInt8).length ≤ n := Nat.zero_le n
  exact loop_readn hfd hfuel hgot

end Readn

section Writen

variable {fd : Outlet} {buffer : List UInt8} {fuel : Nat}

theorem writen_body_cases {written : Nat} (hfd : fd.Progressing) (hleft : written < buffer.length) :
    ∃ fd' k, fd'.Progressing ∧ written + k ≤ buffer.length ∧
      fd'.accepted = fd.accepted ++ (buffer.drop written).take k ∧
      fd'.room.length + (buffer.length - (written + k)) < fd.room.length + (buffer.length - written) ∧
      fd'.room.length ≤ fd.room.length ∧
      writen_body buffer (fd, written) = .ok (.cont (fd', written + k)) := by
  have hlen : (buffer.drop written).length = buffer.length - written := List.length_drop
  rw [writen_body, if_pos hleft]
  unfold Outlet.write
  cases hroom : fd.room with
  | nil =>
    obtain ⟨k, hk⟩ : ∃ k, (buffer.drop written).length = k + 1 := ⟨_, (Nat.succ_pred_eq_of_pos (by omega)).symm⟩
    refine ⟨⟨fd.accepted ++ buffer.drop written, []⟩, buffer.length - written, ?_, by omega, ?_, ?_,
      Nat.le_refl _, ?_⟩
    · simp [Outlet.Progressing]
    · rw [List.take_of_length_le (by omega)]
    · simp only [List.length_nil]
      omega
    · simp only [hk]
      rw [show written + (k + 1) = written + (buffer.length - written) by omega]
  | cons arrival rest =>
    have hfd' : ∀ accepted, Outlet.Progressing ⟨accepted, rest⟩ := fun _ =>
      ⟨fun errno h => hfd.1 errno (by rw [hroom]; exact List.mem_cons_of_mem _ h),
        fun h => hfd.2 (by rw [hroom]; exact List.mem_cons_of_mem _ h)⟩
    cases arrival with
    | error errno =>
      obtain rfl := hfd.1 errno (by rw [hroom]; exact List.mem_cons_self)
      refine ⟨{ fd with room := rest }, 0, hfd' _, by omega, by simp, ?_, Nat.le_succ _, by simp⟩
      simp only [List.length_cons]
      omega
    | bytes most =>
      have hmost : most ≠ 0 := by
        rintro rfl
        exact hfd.2 (by rw [hroom]; exact List.mem_cons_self)
      obtain ⟨k, hk⟩ : ∃ k, min (buffer.drop written).length most = k + 1 :=
        ⟨_, (Nat.succ_pred_eq_of_pos (by omega)).symm⟩
      refine ⟨⟨fd.accepted ++ (buffer.drop written).take (k + 1), rest⟩, k + 1, hfd' _, by omega, rfl, ?_,
        Nat.le_succ _, ?_⟩
      · simp only [List.length_cons]
        omega
      · simp only [hk]

theorem loop_writen {written : Nat} (hfd : fd.Progressing) (hwritten : written ≤ buffer.length)
    (hfuel : fd.room.length + (buffer.length - written) < fuel) :
    ∃ fd', loop (writen_body buffer) fuel (fd, written) = .ok (fd', some buffer.length) ∧
      fd'.accepted = fd.accepted ++ buffer.drop written ∧ fd'.Progressing ∧ fd'.room.length ≤ fd.room.length := by
  induction fuel generalizing fd written with
  | zero => omega
  | succ fuel ih =>
    by_cases hleft : written < buffer.length
    · obtain ⟨next, k, hnext, hle, haccepted, hlower, hroom, hbody⟩ := writen_body_cases hfd hleft
      obtain ⟨fd', hloop, haccepted', hfd', hroom'⟩ := ih hnext hle (by omega)
      refine ⟨fd', by rw [loop_cont hbody, hloop], ?_, hfd', by omega⟩
      rw [haccepted', haccepted, List.append_assoc, ← List.drop_drop, List.take_append_drop]
    · obtain rfl : written = buffer.length := by omega
      refine ⟨fd, loop_done ?_, by rw [List.drop_length, List.append_nil], hfd, Nat.le_refl _⟩
      rw [writen_body, if_neg hleft]

/-- `writen` hands over its whole buffer, however the calls of `write` cut it. -/
theorem writen_bytes (hfd : fd.Progressing) (hfuel : fd.room.length + buffer.length < fuel) :
    ∃ fd', writen fuel fd buffer = .ok (fd', some buffer.length) ∧
      fd'.accepted = fd.accepted ++ buffer ∧ fd'.Progressing ∧ fd'.room.length ≤ fd.room.length :=
  loop_writen hfd (Nat.zero_le _) hfuel

end Writen

section Exchange

/-- What `writen` does, on the bytes that have been accepted. -/
def writen_call (accepted : List UInt8) (buffer : List UInt8) : List UInt8 × Option Nat :=
  (accepted ++ buffer, some buffer.length)

/-- What `readn` does, on the bytes that are left. -/
def readn_call (left : List UInt8) (n : Nat) : List UInt8 × Except Errno Nat × List UInt8 :=
  (left.drop n, .ok (left.take n).length, left.take n)

theorem answers_writen_call (accepted : List UInt8) (buffers : List (List UInt8)) :
    answers writen_call accepted buffers = (accepted ++ buffers.flatten, buffers.map fun b => some b.length) := by
  induction buffers generalizing accepted with
  | nil => simp [answers]
  | cons buffer rest ih => simp [answers, ih, writen_call]

theorem answers_readn_call (buffers : List (List UInt8)) (left : List UInt8) :
    answers readn_call (buffers.flatten ++ left) (buffers.map List.length) =
      (left, buffers.map fun b => (.ok b.length, b)) := by
  induction buffers with
  | nil => simp [answers]
  | cons buffer rest ih => simp [answers, ih, readn_call]

/-- What the calls of `writen` rely on, when these bytes have been accepted. -/
def Outlet.Took (most : Nat) (fd : Outlet) (accepted : List UInt8) : Prop :=
  fd.accepted = accepted ∧ fd.Progressing ∧ fd.room.length ≤ most

theorem calls_writen {most fuel : Nat} {fd : Outlet} {buffers : List (List UInt8)} {accepted : List UInt8}
    (hfd : fd.Took most accepted) (hfuel : ∀ b ∈ buffers, most + b.length < fuel) :
    ∃ fd', calls (writen fuel) fd buffers = .ok (fd', buffers.map fun b => some b.length) ∧
      fd'.accepted = accepted ++ buffers.flatten := by
  have hcall : ∀ (fd : Outlet) (accepted buffer : List UInt8), fd.Took most accepted → most + buffer.length < fuel →
      ∃ fd', writen fuel fd buffer = .ok (fd', (writen_call accepted buffer).2) ∧
        fd'.Took most (writen_call accepted buffer).1 := by
    rintro fd _ buffer ⟨rfl, hfd, hroom⟩ hlen
    obtain ⟨fd', hwrite, haccepted, hfd', hroom'⟩ := writen_bytes hfd (by omega : fd.room.length + buffer.length < fuel)
    exact ⟨fd', hwrite, haccepted, hfd', by omega⟩
  obtain ⟨fd', hcalls, haccepted, -⟩ := calls_refine hcall hfd hfuel
  rw [answers_writen_call] at hcalls haccepted
  exact ⟨fd', hcalls, haccepted⟩

theorem calls_readn {fuel : Nat} {fd : Stream} {buffers : List (List UInt8)} {left : List UInt8}
    (hfd : fd.Gives fuel (buffers.flatten ++ left)) :
    ∃ fd', calls (readn fuel) fd (buffers.map List.length) = .ok (fd', buffers.map fun b => (.ok b.length, b)) ∧
      fd'.left = left := by
  have hcall : ∀ (fd : Stream) (left : List UInt8) (n : Nat), fd.Gives fuel left → True →
      ∃ fd', readn fuel fd n = .ok (fd', (readn_call left n).2) ∧ fd'.Gives fuel (readn_call left n).1 := by
    rintro fd _ n ⟨rfl, hfd, hcalls⟩ -
    obtain ⟨fd', hread, hleft, hfd', hle⟩ := readn_bytes hfd hcalls n
    exact ⟨fd', hread, hleft, hfd', Nat.lt_of_le_of_lt hle hcalls⟩
  obtain ⟨fd', hcalls, hleft, -⟩ := calls_refine hcall hfd (fun _ _ => trivial)
  rw [answers_readn_call] at hcalls hleft
  exact ⟨fd', hcalls, hleft⟩

/-- Buffers that are sent with `writen` and read at the other end with `readn` arrive as they were
    sent, however the calls of `write` and `read` cut them and whichever are interrupted. -/
theorem writen_readn (buffers : List (List UInt8)) (room arrivals : List Arrival) (fuel : Nat)
    (hroom : Outlet.Progressing ⟨[], room⟩) (harrivals : Stream.Interruptible ⟨buffers.flatten, arrivals⟩)
    (hfuel : room.length + arrivals.length + buffers.flatten.length < fuel) :
    ∃ sender receiver,
      calls (writen fuel) ⟨[], room⟩ buffers = .ok (sender, buffers.map fun b => some b.length) ∧
      calls (readn fuel) ⟨sender.accepted, arrivals⟩ (buffers.map List.length) =
        .ok (receiver, buffers.map fun b => (.ok b.length, b)) ∧
      receiver.left = [] := by
  have hlen : ∀ b ∈ buffers, room.length + b.length < fuel := by
    intro b hb
    have hle := (List.sublist_flatten_of_mem hb).length_le
    omega
  have htook : Outlet.Took room.length ⟨[], room⟩ [] := ⟨rfl, hroom, Nat.le_refl _⟩
  obtain ⟨sender, hsend, haccepted⟩ := calls_writen htook hlen
  rw [List.nil_append] at haccepted
  have hgives : Stream.Gives ⟨sender.accepted, arrivals⟩ fuel (buffers.flatten ++ []) := by
    rw [haccepted]
    refine ⟨(List.append_nil _).symm, harrivals, ?_⟩
    simp only [Stream.calls_left]
    omega
  obtain ⟨receiver, hreceive, hleft⟩ := calls_readn hgives
  exact ⟨sender, receiver, hsend, hreceive, hleft⟩

theorem writen_readn_two_buffers : ∃ sender receiver,
    calls (writen 20) ⟨[], [.bytes 1, .error EINTR]⟩ [[1, 2, 3], [4]] = .ok (sender, [some 3, some 1]) ∧
    calls (readn 20) ⟨sender.accepted, [.bytes 2, .error EINTR]⟩ [3, 1] =
      .ok (receiver, [(.ok 3, [1, 2, 3]), (.ok 1, [4])]) ∧
    receiver.left = [] :=
  writen_readn [[1, 2, 3], [4]] [.bytes 1, .error EINTR] [.bytes 2, .error EINTR] 20
    (by simp [Outlet.Progressing]) (by simp [Stream.Interruptible]) (by decide)

end Exchange

end tlpi.rdwrn
