import Tlpi.Io.Stream
import Tlpi.Lib.Calls

namespace tlpi.read_line

/-- What a function that reads a line gives back: the number it returns, or the `errno` of a
    returned -1, and the bytes that it has stored in the caller's buffer. -/
structure Reply where
  result : Except Errno Nat
  stored : List UInt8

/-- One iteration of the loop of `readLine`, on the descriptor and the bytes in the buffer. -/
def readLine_body (n : Nat) (state : Stream × List UInt8) : Exec (Flow (Stream × List UInt8) (Stream × Reply)) :=
  match state.1.read 1 with
  | (fd, .error errno) =>
    if errno = EINTR then .ok (.cont (fd, state.2)) else .ok (.done (fd, ⟨.error errno, state.2⟩))
  | (fd, .ok []) =>
    if state.2.length = 0 then .ok (.done (fd, ⟨.ok 0, []⟩))
    else .ok (.done (fd, ⟨.ok state.2.length, state.2 ++ [0]⟩))
  | (fd, .ok (ch :: _)) =>
    let buf := if state.2.length < n - 1 then state.2 ++ [ch] else state.2
    if ch = 10 then .ok (.done (fd, ⟨.ok buf.length, buf ++ [0]⟩)) else .ok (.cont (fd, buf))

/-- `readLine(fd, buffer, n)`. -/
def readLine (fuel : Nat) (fd : Stream) (n : Nat) : Exec (Stream × Reply) :=
  if n = 0 then .ok (fd, ⟨.error .EINVAL, []⟩) else loop (readLine_body n) fuel (fd, [])

def RL_MAX_BUF : Nat := 10

/-- `struct ReadLineBuf`. -/
structure ReadLineBuf where
  fd : Stream
  buf : List UInt8
  next : Nat
  len : Int
deriving DecidableEq

/-- `readLineBufInit(fd, rlbuf)`, where the array holds whatever it held before. -/
def readLineBufInit (fd : Stream) (buf : List UInt8) : ReadLineBuf := ⟨fd, buf, 0, 0⟩

/-- The character at `next`, and then the newline ends the line. -/
def take_char (n : Nat) (rlbuf : ReadLineBuf) (buffer : List UInt8) :
    Exec (Flow (ReadLineBuf × List UInt8) (ReadLineBuf × Reply)) :=
  match rlbuf.buf[rlbuf.next]? with
  | none => .error .outOfBounds
  | some c =>
    let rlbuf := { rlbuf with next := rlbuf.next + 1 }
    let buffer := if buffer.length < n then buffer ++ [c] else buffer
    if c = 10 then .ok (.done (rlbuf, ⟨.ok buffer.length, buffer⟩)) else .ok (.cont (rlbuf, buffer))

/-- One iteration of the loop of `readLineBuf`, on the structure and the bytes in the buffer. -/
def readLineBuf_body (n : Nat) (state : ReadLineBuf × List UInt8) :
    Exec (Flow (ReadLineBuf × List UInt8) (ReadLineBuf × Reply)) :=
  if state.1.len ≤ state.1.next then
    match state.1.fd.read RL_MAX_BUF with
    | (fd, .error errno) => .ok (.done ({ state.1 with fd, len := -1 }, ⟨.error errno, state.2⟩))
    | (fd, .ok bytes) =>
      let rlbuf := { state.1 with fd, buf := bytes ++ state.1.buf.drop bytes.length, len := bytes.length }
      if bytes.length = 0 then .ok (.done (rlbuf, ⟨.ok state.2.length, state.2⟩))
      else take_char n { rlbuf with next := 0 } state.2
  else take_char n state.1 state.2

/-- `readLineBuf(rlbuf, buffer, n)`. -/
def readLineBuf (fuel : Nat) (rlbuf : ReadLineBuf) (n : Nat) : Exec (ReadLineBuf × Reply) :=
  if n = 0 then .ok (rlbuf, ⟨.error .EINVAL, []⟩) else loop (readLineBuf_body n) fuel (rlbuf, [])

section ReadLine

variable {fd : Stream} {n fuel : Nat}

/-- What `readLine` gives back for a line. -/
def terminated (line : List UInt8) : Reply :=
  ⟨.ok line.length, if line = [] then [] else line ++ [0]⟩

theorem take_concat_min {seen : List UInt8} (c : UInt8) (n : Nat) :
    (if (seen.take n).length < n then seen.take n ++ [c] else seen.take n) = (seen ++ [c]).take n := by
  by_cases h : seen.length < n
  · rw [List.take_of_length_le h.le, if_pos h, List.take_of_length_le (by simpa using Nat.succ_le_of_lt h)]
  · rw [List.length_take, Nat.min_eq_left (Nat.not_lt.mp h), if_neg (Nat.lt_irrefl n),
      List.take_append_of_le_length (Nat.not_lt.mp h)]

theorem readLine_body_interrupted {rest : List Arrival} {buf : List UInt8}
    (h : fd.read 1 = ({ fd with arrivals := rest }, .error EINTR)) :
    readLine_body n (fd, buf) = .ok (.cont ({ fd with arrivals := rest }, buf)) := by
  rw [readLine_body]
  simp only [h, if_true]

theorem readLine_body_eof {fd' : Stream} {buf : List UInt8} (h : fd.read 1 = (fd', .ok [])) :
    readLine_body n (fd, buf) = .ok (.done (fd', terminated buf)) := by
  rw [readLine_body]
  simp only [h, terminated]
  cases buf with
  | nil => rfl
  | cons c buf => rfl

theorem readLine_body_char {fd' : Stream} {ch : UInt8} (seen : List UInt8) (hn : 2 ≤ n)
    (h : fd.read 1 = (fd', .ok [ch])) :
    readLine_body n (fd, seen.take (n - 1)) =
      if ch = 10 then .ok (.done (fd', terminated ((seen ++ [ch]).take (n - 1))))
      else .ok (.cont (fd', (seen ++ [ch]).take (n - 1))) := by
  rw [readLine_body]
  simp only [h, take_concat_min, terminated]
  have hne : (seen ++ [ch]).take (n - 1) ≠ [] := by
    intro hnil
    have hlen := congrArg List.length hnil
    simp only [List.length_take, List.length_append, List.length_singleton, List.length_nil] at hlen
    omega
  rw [if_neg hne]

theorem loop_readLine (hn : 2 ≤ n) (hfd : fd.Interruptible) (hfuel : fd.calls_left < fuel) (seen : List UInt8) :
    ∃ fd', loop (readLine_body n) fuel (fd, seen.take (n - 1)) =
        .ok (fd', terminated ((seen ++ (next_line fd.left).1).take (n - 1))) ∧
      fd'.left = (next_line fd.left).2 ∧ fd'.Interruptible ∧ fd'.calls_left ≤ fd.calls_left := by
  induction fuel generalizing fd seen with
  | zero => omega
  | succ fuel ih =>
    obtain ⟨errno, rest, harrivals, hread⟩ | ⟨bytes, left, rest, hleft, hle, hnil, hrest, hread⟩ :=
      fd.read_cases Nat.one_pos
    · obtain ⟨rfl, hfd', hshort⟩ := hfd.interrupted harrivals
      obtain ⟨fd', hloop, hleft, hfd'', hcalls⟩ := ih hfd' (by omega) seen
      rw [loop_cont (readLine_body_interrupted hread)]
      exact ⟨fd', hloop, hleft, hfd'', by omega⟩
    · have hlen := hrest.length_le
      have hfd' := hfd.suffix hrest left
      cases bytes with
      | nil =>
        have hempty := hnil rfl
        rw [hempty, List.nil_append] at hleft
        refine ⟨⟨left, rest⟩, ?_, ?_, hfd', ?_⟩
        · rw [loop_done (readLine_body_eof hread), hempty, next_line, List.append_nil]
        · rw [← hleft, hempty, next_line]
        · simp only [Stream.calls_left, hempty, ← hleft]
          omega
      | cons ch bytes =>
        obtain rfl : bytes = [] := List.eq_nil_of_length_eq_zero (by simpa using hle)
        rw [List.singleton_append] at hleft
        have hbody := readLine_body_char seen hn hread
        have hcalls : (⟨left, rest⟩ : Stream).calls_left + 1 ≤ fd.calls_left := by
          simp only [Stream.calls_left, hleft, List.length_cons]
          omega
        rw [hleft, next_line]
        by_cases hch : ch = 10
        · rw [if_pos hch] at hbody ⊢
          exact ⟨⟨left, rest⟩, loop_done hbody, rfl, hfd', by omega⟩
        · rw [if_neg hch] at hbody ⊢
          obtain ⟨fd', hloop, hleft', hfd'', hcalls'⟩ := ih hfd' (by omega) (seen ++ [ch])
          refine ⟨fd', ?_, hleft', hfd'', by omega⟩
          rw [loop_cont hbody, hloop, List.append_assoc, List.singleton_append]

/-- `readLine` takes exactly one line off the descriptor, however its bytes come in and its calls
    are interrupted. -/
theorem readLine_line (hn : 2 ≤ n) (hfd : fd.Interruptible) (hfuel : fd.calls_left < fuel) :
    ∃ fd', readLine fuel fd n = .ok (fd', terminated ((next_line fd.left).1.take (n - 1))) ∧
      fd'.left = (next_line fd.left).2 ∧ fd'.Interruptible ∧ fd'.calls_left ≤ fd.calls_left := by
  rw [readLine, if_neg (by omega)]
  simpa only [List.take_nil, List.nil_append] using loop_readLine hn hfd hfuel []

end ReadLine

section ReadLineBuf

variable {rlbuf : ReadLineBuf} {n fuel : Nat}

/-- The bytes that are in the buffer and not yet given out. -/
def ReadLineBuf.unread (rlbuf : ReadLineBuf) : List UInt8 := (rlbuf.buf.take rlbuf.len.toNat).drop rlbuf.next

/-- All bytes up to the end of file that are not yet given out. -/
def ReadLineBuf.left (rlbuf : ReadLineBuf) : List UInt8 := rlbuf.unread ++ rlbuf.fd.left

structure ReadLineBuf.Ok (rlbuf : ReadLineBuf) : Prop where
  size : rlbuf.buf.length = RL_MAX_BUF
  len : rlbuf.len ≤ RL_MAX_BUF
  fd : rlbuf.fd.Reliable

/-- What `readLineBuf` gives back for a line. -/
def plain (line : List UInt8) : Reply := ⟨.ok line.length, line⟩

theorem unread_eq_nil (h : rlbuf.len ≤ rlbuf.next) : rlbuf.unread = [] := by
  refine List.drop_eq_nil_of_le ?_
  rw [List.length_take]
  omega

/-- Giving out the next byte of the buffer. -/
theorem take_char_unread {c : UInt8} {rest : List UInt8} (seen : List UInt8) (hok : rlbuf.Ok)
    (hunread : rlbuf.unread = c :: rest) :
    ∃ rlbuf', rlbuf'.Ok ∧ rlbuf'.unread = rest ∧ rlbuf'.fd = rlbuf.fd ∧
      take_char n rlbuf (seen.take n) =
        if c = 10 then .ok (.done (rlbuf', plain ((seen ++ [c]).take n)))
        else .ok (.cont (rlbuf', (seen ++ [c]).take n)) := by
  have hget : (rlbuf.buf.take rlbuf.len.toNat)[rlbuf.next]? = some c := by
    rw [← List.head?_drop, ← ReadLineBuf.unread, hunread, List.head?_cons]
  have hchar : rlbuf.buf[rlbuf.next]? = some c := by
    rw [List.getElem?_take] at hget
    split at hget
    · exact hget
    · cases hget
  refine ⟨{ rlbuf with next := rlbuf.next + 1 }, ⟨hok.size, hok.len, hok.fd⟩, ?_, rfl, ?_⟩
  · rw [ReadLineBuf.unread, ← List.drop_drop, ← ReadLineBuf.unread, hunread]
    rfl
  · rw [take_char, hchar]
    simp only [take_concat_min, plain]

/-- Filling the empty buffer, when there is still something to read. -/
theorem readLineBuf_body_refill {seen : List UInt8} (hok : rlbuf.Ok) (hempty : rlbuf.len ≤ rlbuf.next)
    (hleft : rlbuf.fd.left ≠ []) :
    ∃ rlbuf', rlbuf'.Ok ∧ rlbuf'.unread ≠ [] ∧ rlbuf'.left = rlbuf.left ∧
      readLineBuf_body n (rlbuf, seen) = take_char n rlbuf' seen := by
  obtain ⟨errno, rest, harrivals, -⟩ | ⟨bytes, left, rest, hsplit, hle, hnil, hrest, hread⟩ :=
    rlbuf.fd.read_cases (by decide : 0 < RL_MAX_BUF)
  · exact absurd (by rw [harrivals]; exact List.mem_cons_self) (hok.fd errno)
  · have hne : bytes.length ≠ 0 := fun h => hleft (hnil (List.eq_nil_of_length_eq_zero h))
    refine ⟨⟨⟨left, rest⟩, bytes ++ rlbuf.buf.drop bytes.length, 0, bytes.length⟩, ⟨?_, ?_, ?_⟩, ?_, ?_, ?_⟩
    · have hsize := hok.size
      simp only [List.length_append, List.length_drop]
      omega
    · simp only
      omega
    · exact fun errno herrno => hok.fd errno (hrest.subset herrno)
    · simpa [ReadLineBuf.unread] using hne
    · rw [ReadLineBuf.left, ReadLineBuf.left, unread_eq_nil hempty, hsplit]
      simp only [ReadLineBuf.unread, Int.toNat_natCast, List.drop_zero, List.take_left', List.nil_append]
    · rw [readLineBuf_body]
      simp only [if_pos hempty, hread, if_neg hne]

theorem readLineBuf_body_char {c : UInt8} {rest : List UInt8} (seen : List UInt8) (hok : rlbuf.Ok)
    (hleft : rlbuf.left = c :: rest) :
    ∃ rlbuf', rlbuf'.Ok ∧ rlbuf'.left = rest ∧
      readLineBuf_body n (rlbuf, seen.take n) =
        if c = 10 then .ok (.done (rlbuf', plain ((seen ++ [c]).take n)))
        else .ok (.cont (rlbuf', (seen ++ [c]).take n)) := by
  obtain ⟨full, hfull, hunread, hsame, hbody⟩ : ∃ full : ReadLineBuf, full.Ok ∧ full.unread ≠ [] ∧
      full.left = rlbuf.left ∧ readLineBuf_body n (rlbuf, seen.take n) = take_char n full (seen.take n) := by
    by_cases hempty : rlbuf.len ≤ rlbuf.next
    · refine readLineBuf_body_refill hok hempty ?_
      rw [ReadLineBuf.left, unread_eq_nil hempty, List.nil_append] at hleft
      rw [hleft]
      exact List.cons_ne_nil _ _
    · refine ⟨rlbuf, hok, ?_, rfl, ?_⟩
      · have hsize := hok.size
        have hlen := hok.len
        refine List.ne_nil_of_length_pos ?_
        rw [ReadLineBuf.unread, List.length_drop, List.length_take]
        omega
      · rw [readLineBuf_body, if_neg hempty]
  obtain ⟨d, unread, hd⟩ := List.exists_cons_of_ne_nil hunread
  rw [hleft, ReadLineBuf.left, hd, List.cons_append, List.cons.injEq] at hsame
  obtain ⟨rfl, hrest⟩ := hsame
  obtain ⟨rlbuf', hok', hunread', hfd, htake⟩ := take_char_unread seen hfull hd
  refine ⟨rlbuf', hok', ?_, hbody.trans htake⟩
  rw [ReadLineBuf.left, hunread', hfd, hrest]

theorem readLineBuf_body_eof {seen : List UInt8} (hok : rlbuf.Ok) (hleft : rlbuf.left = []) :
    ∃ rlbuf', rlbuf'.Ok ∧ rlbuf'.left = [] ∧ readLineBuf_body n (rlbuf, seen) = .ok (.done (rlbuf', plain seen)) := by
  obtain ⟨hunread, hfd⟩ := List.append_eq_nil_iff.mp hleft
  have hempty : rlbuf.len ≤ rlbuf.next := by
    have hsize := hok.size
    have hlen := hok.len
    have hshort := List.drop_eq_nil_iff.mp hunread
    rw [List.length_take] at hshort
    omega
  obtain ⟨errno, rest, harrivals, -⟩ | ⟨bytes, left, rest, hsplit, -, -, hrest, hread⟩ :=
    rlbuf.fd.read_cases (by decide : 0 < RL_MAX_BUF)
  · exact absurd (by rw [harrivals]; exact List.mem_cons_self) (hok.fd errno)
  · obtain ⟨rfl, rfl⟩ := List.append_eq_nil_iff.mp (hsplit.symm.trans hfd)
    refine ⟨⟨⟨[], rest⟩, rlbuf.buf, rlbuf.next, 0⟩, ⟨hok.size, Int.natCast_nonneg _, ?_⟩, ?_, ?_⟩
    · exact fun errno herrno => hok.fd errno (hrest.subset herrno)
    · simp [ReadLineBuf.left, ReadLineBuf.unread]
    · rw [readLineBuf_body]
      simp only [if_pos hempty, hread, List.length_nil, if_true, List.nil_append, List.drop_zero, plain]
      rfl

theorem loop_readLineBuf (hok : rlbuf.Ok) (hfuel : rlbuf.left.length < fuel) (seen : List UInt8) :
    ∃ rlbuf', loop (readLineBuf_body n) fuel (rlbuf, seen.take n) =
        .ok (rlbuf', plain ((seen ++ (next_line rlbuf.left).1).take n)) ∧
      rlbuf'.left = (next_line rlbuf.left).2 ∧ rlbuf'.Ok := by
  induction fuel generalizing rlbuf seen with
  | zero => omega
  | succ fuel ih =>
    cases hleft : rlbuf.left with
    | nil =>
      obtain ⟨rlbuf', hok', hleft', hbody⟩ := readLineBuf_body_eof hok hleft
      exact ⟨rlbuf', by rw [loop_done hbody, next_line, List.append_nil], hleft', hok'⟩
    | cons c rest =>
      obtain ⟨rlbuf', hok', hleft', hbody⟩ := readLineBuf_body_char seen hok hleft
      rw [hleft, List.length_cons] at hfuel
      rw [next_line]
      by_cases hc : c = 10
      · rw [if_pos hc] at hbody ⊢
        exact ⟨rlbuf', loop_done hbody, hleft', hok'⟩
      · rw [if_neg hc] at hbody ⊢
        obtain ⟨rlbuf'', hloop, hleft'', hok''⟩ := ih hok' (by rw [hleft']; omega) (seen ++ [c])
        rw [hleft'] at hloop hleft''
        refine ⟨rlbuf'', ?_, hleft'', hok''⟩
        rw [loop_cont hbody, hloop, List.append_assoc, List.singleton_append]

/-- `readLineBuf` takes exactly one line, out of the buffer and off the descriptor. -/
theorem readLineBuf_line (hn : 1 ≤ n) (hok : rlbuf.Ok) (hfuel : rlbuf.left.length < fuel) :
    ∃ rlbuf', readLineBuf fuel rlbuf n = .ok (rlbuf', plain ((next_line rlbuf.left).1.take n)) ∧
      rlbuf'.left = (next_line rlbuf.left).2 ∧ rlbuf'.Ok := by
  rw [readLineBuf, if_neg (by omega)]
  simpa only [List.take_nil, List.nil_append] using loop_readLineBuf hok hfuel []

end ReadLineBuf

section Agree

/-- The lines of a text one after the other, each cut to the size of its buffer, and nothing
    when there are no more of them. -/
def cut_lines (text : List UInt8) (sizes : List Nat) : List (List UInt8) :=
  sizes.mapIdx fun i n => ((lines text).getD i []).take n

/-- The call of a function that reads a line, on the text that is left. -/
def line_call (reply : List UInt8 → Reply) (text : List UInt8) (n : Nat) : List UInt8 × Reply :=
  ((next_line text).2, reply ((next_line text).1.take n))

theorem answers_line_call (reply : List UInt8 → Reply) (text : List UInt8) (sizes : List Nat) :
    (answers (line_call reply) text sizes).2 = (cut_lines text sizes).map reply := by
  induction sizes generalizing text with
  | nil => rfl
  | cons n sizes ih =>
    rw [answers, ih, cut_lines, cut_lines, List.mapIdx_cons, List.map_cons]
    cases text with
    | nil => rfl
    | cons c rest => rw [lines_next_line (List.cons_ne_nil c rest)]; rfl

theorem answers_line_call_text (reply : List UInt8 → Reply) (text : List UInt8) (sizes : List Nat) :
    (answers (line_call reply) text sizes).1 = (fun text => (next_line text).2)^[sizes.length] text := by
  induction sizes generalizing text with
  | nil => rfl
  | cons n sizes ih => rw [answers, ih, List.length_cons, Function.iterate_succ_apply, line_call]

theorem readLine_call (fuel : Nat) (fd : Stream) (text : List UInt8) (n : Nat) (hfd : fd.Gives fuel text)
    (hn : 1 ≤ n) :
    ∃ fd', readLine fuel fd (n + 1) = .ok (fd', (line_call terminated text n).2) ∧
      fd'.Gives fuel (line_call terminated text n).1 := by
  obtain ⟨rfl, hfd, hcalls⟩ := hfd
  obtain ⟨fd', hread, hleft, hfd', hle⟩ := readLine_line (Nat.succ_le_succ hn) hfd hcalls
  exact ⟨fd', hread, hleft, hfd', Nat.lt_of_le_of_lt hle hcalls⟩

/-- What the calls of `readLineBuf` rely on. -/
def ReadLineBuf.Gives (rlbuf : ReadLineBuf) (fuel : Nat) (text : List UInt8) : Prop :=
  rlbuf.left = text ∧ rlbuf.Ok ∧ text.length < fuel

theorem readLineBuf_call (fuel : Nat) (rlbuf : ReadLineBuf) (text : List UInt8) (n : Nat)
    (hrlbuf : rlbuf.Gives fuel text) (hn : 1 ≤ n) :
    ∃ rlbuf', readLineBuf fuel rlbuf n = .ok (rlbuf', (line_call plain text n).2) ∧
      rlbuf'.Gives fuel (line_call plain text n).1 := by
  obtain ⟨rfl, hok, hlen⟩ := hrlbuf
  obtain ⟨rlbuf', hread, hleft, hok'⟩ := readLineBuf_line hn hok hlen
  refine ⟨rlbuf', hread, hleft, hok', ?_⟩
  have happend := congrArg List.length (next_line_append rlbuf.left)
  rw [List.length_append] at happend
  simp only [line_call]
  omega

/-- The calls of `readLineBuf` return the same lines as the calls of `readLine` with a buffer that
    is one byte longer, and they are the lines of the input, for every way in which the input
    comes in and the calls of `readLine` are interrupted. -/
theorem readLineBuf_agrees (text : List UInt8) (arrivals buffered : List Arrival) (buf : List UInt8)
    (sizes : List Nat) (fuel : Nat) (hsizes : ∀ n ∈ sizes, 1 ≤ n) (hbuf : buf.length = RL_MAX_BUF)
    (hplain : Stream.Interruptible ⟨text, arrivals⟩) (hbuffered : Stream.Reliable ⟨text, buffered⟩)
    (hfuel : text.length + arrivals.length < fuel) :
    ∃ fd rlbuf,
      calls (readLine fuel) ⟨text, arrivals⟩ (sizes.map (· + 1)) =
        .ok (fd, (cut_lines text sizes).map terminated) ∧
      calls (readLineBuf fuel) (readLineBufInit ⟨text, buffered⟩ buf) sizes =
        .ok (rlbuf, (cut_lines text sizes).map plain) ∧
      fd.left = rlbuf.left := by
  have hgives : Stream.Gives ⟨text, arrivals⟩ fuel text := ⟨rfl, hplain, hfuel⟩
  have hgives' : (readLineBufInit ⟨text, buffered⟩ buf).Gives fuel text := by
    refine ⟨?_, ⟨hbuf, Int.natCast_nonneg _, hbuffered⟩, by omega⟩
    simp [readLineBufInit, ReadLineBuf.left, ReadLineBuf.unread]
  obtain ⟨fd, hcalls, hleft, -⟩ := calls_refine (readLine_call fuel) hgives hsizes
  obtain ⟨rlbuf, hcalls', hleft', -⟩ := calls_refine (readLineBuf_call fuel) hgives' hsizes
  refine ⟨fd, rlbuf, ?_, ?_, ?_⟩
  · rw [calls_map, hcalls, answers_line_call]
  · rw [hcalls', answers_line_call]
  · rw [hleft, hleft', answers_line_call_text, answers_line_call_text]

/-- Three calls on two lines, of which the first is longer than the buffer. -/
theorem readLineBuf_agrees_two_lines : ∃ fd rlbuf,
    calls (readLine 20) ⟨[97, 98, 99, 10, 100], [.error EINTR, .bytes 3]⟩ [3, 9, 9] =
      .ok (fd, [[97, 98], [100], []].map terminated) ∧
    calls (readLineBuf 20) (readLineBufInit ⟨[97, 98, 99, 10, 100], [.bytes 2]⟩ (List.replicate 10 0)) [2, 8, 8] =
      .ok (rlbuf, [[97, 98], [100], []].map plain) ∧
    fd.left = rlbuf.left :=
  readLineBuf_agrees [97, 98, 99, 10, 100] [.error EINTR, .bytes 3] [.bytes 2] (List.replicate 10 0) [2, 8, 8] 20
    (by decide) (by decide) (by simp [Stream.Interruptible]) (by simp [Stream.Reliable]) (by decide)

end Agree

end tlpi.read_line
