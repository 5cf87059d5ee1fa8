import Tlpi.Lib.Strtol
import Tlpi.Sockets.ReadLine

namespace tlpi.is_seqnum

open read_line

/-- The size of the buffers for a number and its newline. -/
def INT_LEN : Nat := 30

/-- `atoi(text)`: the value of `strtol` as an `int`. -/
def atoi (text : List UInt8) : Int := (strtol text 10).value.bmod (2 ^ 32)

/-- The string in a buffer. -/
def string (stored : List UInt8) : List UInt8 := stored.takeWhile (· ≠ 0)

/-- `snprintf(seqNumStr, INT_LEN, "%d\n", seqNum)` with an unsigned number. -/
def seqNumStr (seqNum : Nat) : List UInt8 := signed ((seqNum : Int).bmod (2 ^ 32)) (numeral 10) ++ [10]

/-- What the server makes of a request: its counter after it, and what is written to the client,
    if anything is. -/
def answer (seqNum : Nat) (reply : Reply) : Nat × Option (List UInt8) :=
  match reply.result with
  | .error _ | .ok 0 => (seqNum, none)
  | .ok _ =>
    let reqLen := atoi (string reply.stored)
    if reqLen ≤ 0 then (seqNum, none) else ((seqNum + reqLen.toNat) % 2 ^ 32, some (seqNumStr seqNum))

/-- One iteration of the loop of the server, on its counter and a connection. -/
def serve (fuel : Nat) (seqNum : Nat) (cfd : Stream) : Exec (Nat × Option (List UInt8)) := do
  let r ← readLine fuel cfd INT_LEN
  pure (answer seqNum r.2)

/-- What a client writes to the server. -/
def request (reqLenStr : List UInt8) : List UInt8 := reqLenStr ++ [10]

/-- How the client ends: with an error, or with what it prints. -/
inductive Ending where
  | errExit (errno : Errno)
  | fatal (message : String)
  | printed (stdout : List UInt8)
deriving DecidableEq

/-- The client from its `readLine` on. -/
def receive (fuel : Nat) (cfd : Stream) : Exec Ending := do
  let r ← readLine fuel cfd INT_LEN
  match r.2.result with
  | .error errno => .ok (.errExit errno)
  | .ok n =>
    if n = 0 then .ok (.fatal "Unexpected EOF from server")
    else .ok (.printed (ascii "Sequence number: " ++ string r.2.stored))

/-- How many numbers a connection is granted. -/
def granted (cfd : Stream) : Nat := (atoi (string ((next_line cfd.left).1.take (INT_LEN - 1)))).toNat

section Serve

variable {fuel seqNum : Nat} {cfd : Stream}

theorem answer_terminated (hseq : seqNum < 2 ^ 32) (line : List UInt8) :
    answer seqNum (terminated line) = ((seqNum + (atoi (string line)).toNat) % 2 ^ 32,
      if (atoi (string line)).toNat = 0 then none else some (seqNumStr seqNum)) := by
  cases line with
  | nil =>
    have hnone : (atoi (string [])).toNat = 0 := by decide
    rw [hnone, Nat.add_zero, Nat.mod_eq_of_lt hseq, if_pos rfl]
    rfl
  | cons c rest =>
    have hstring : string (c :: rest ++ [0]) = string (c :: rest) := takeWhile_concat (by decide)
    simp only [answer, terminated, List.length_cons, if_neg (List.cons_ne_nil c rest), hstring]
    by_cases hreq : atoi (string (c :: rest)) ≤ 0
    · rw [if_pos hreq, Int.toNat_of_nonpos hreq, if_pos rfl, Nat.add_zero, Nat.mod_eq_of_lt hseq]
    · rw [if_neg hreq, if_neg (by omega)]

theorem serve_granted (hfd : cfd.Interruptible) (hfuel : cfd.calls_left < fuel) (hseq : seqNum < 2 ^ 32) :
    serve fuel seqNum cfd = .ok ((seqNum + granted cfd) % 2 ^ 32,
      if granted cfd = 0 then none else some (seqNumStr seqNum)) := by
  obtain ⟨fd', hread, -⟩ := readLine_line (by decide : 2 ≤ INT_LEN) hfd hfuel
  rw [serve, hread, exec_bind_ok, answer_terminated hseq, granted]
  rfl

end Serve

section Client

theorem next_line_newline {body : List UInt8} (h : 10 ∉ body) : next_line (body ++ [10]) = (body ++ [10], []) := by
  induction body with
  | nil => rfl
  | cons c body ih =>
    have hc : c ≠ 10 := fun hc => h (hc ▸ List.mem_cons_self)
    rw [List.cons_append, next_line, if_neg hc, ih fun hmem => h (List.mem_cons_of_mem c hmem)]

/-- `atoi` stops at the newline. -/
theorem atoi_numeral {n : Nat} (hn : n < 2 ^ 31) : atoi (numeral 10 n ++ [10]) = n := by
  have hlong : (n : Int) ≤ LONG_MAX := by
    unfold LONG_MAX
    omega
  rw [atoi, strtol_numeral (by decide) (by decide) (by decide) (by decide) [] hlong]
  change (n : Int).bmod (2 ^ 32) = n
  exact Int.bmod_eq_of_le (by omega) (by omega)

/-- A line that is shorter than the buffer is read as it was written. -/
theorem take_line {body : List UInt8} (hline : 10 ∉ body) (hlen : body.length < INT_LEN - 1) :
    (next_line (body ++ [10])).1.take (INT_LEN - 1) = body ++ [10] := by
  rw [next_line_newline hline, List.take_of_length_le]
  rw [List.length_append, List.length_singleton]
  exact hlen

theorem string_line {body : List UInt8} (h : 0 ∉ body) : string (body ++ [10]) = body ++ [10] := by
  refine List.takeWhile_eq_self_iff.mpr ?_
  intro c hc
  rw [decide_eq_true_iff]
  rintro rfl
  rcases List.mem_append.mp hc with hmem | hmem
  · exact h hmem
  · exact absurd hmem (by decide)

/-- A client that asks for a number of numbers is granted them. -/
theorem granted_request {reqLen : Nat} (hreq : reqLen < 2 ^ 31) (arrivals : List Arrival) :
    granted ⟨request (numeral 10 reqLen), arrivals⟩ = reqLen := by
  have hlen : (numeral 10 reqLen).length ≤ 10 := length_numeral_le (by decide) (by decide) (by omega)
  have hroom : (numeral 10 reqLen).length < INT_LEN - 1 := Nat.lt_of_le_of_lt hlen (by decide)
  obtain ⟨hzero, hline⟩ := numeral_line reqLen
  rw [granted, request, take_line hline hroom, string_line hzero, atoi_numeral hreq, Int.toNat_natCast]

/-- A number as a client is told it: as the `int` with the same 32 bits. -/
def told (start : Nat) : List UInt8 :=
  if start % 2 ^ 32 < 2 ^ 31 then numeral 10 (start % 2 ^ 32) else 45 :: numeral 10 (2 ^ 32 - start % 2 ^ 32)

theorem told_line (start : Nat) : 0 ∉ told start ∧ 10 ∉ told start ∧ (told start).length ≤ 11 := by
  unfold told
  split
  · have hlen : (numeral 10 (start % 2 ^ 32)).length ≤ 10 := length_numeral_le (by decide) (by decide) (by omega)
    exact ⟨(numeral_line _).1, (numeral_line _).2, by omega⟩
  · have hlen : (numeral 10 (2 ^ 32 - start % 2 ^ 32)).length ≤ 10 :=
      length_numeral_le (by decide) (by decide) (by omega)
    refine ⟨?_, ?_, Nat.succ_le_succ hlen⟩
    · exact List.not_mem_cons_of_ne_of_not_mem (by decide) (numeral_line _).1
    · exact List.not_mem_cons_of_ne_of_not_mem (by decide) (numeral_line _).2

theorem seqNumStr_eq (start : Nat) : seqNumStr start = told start ++ [10] := by
  rw [seqNumStr, told, signed]
  by_cases hsmall : start % 2 ^ 32 < 2 ^ 31
  · have hbmod : (start : Int).bmod (2 ^ 32) = (start % 2 ^ 32 : Nat) := by
      rw [Int.bmod_def]
      omega
    rw [if_pos hsmall, hbmod, if_neg (by omega), Int.natAbs_natCast]
  · have hbmod : (start : Int).bmod (2 ^ 32) = -((2 ^ 32 - start % 2 ^ 32 : Nat) : Int) := by
      rw [Int.bmod_def]
      omega
    rw [if_neg hsmall, hbmod, if_pos (by omega), Int.natAbs_neg, Int.natAbs_natCast]

/-- The client prints what it is told. -/
theorem receive_line {fuel : Nat} {body : List UInt8} {arrivals : List Arrival} (hzero : 0 ∉ body) (hline : 10 ∉ body)
    (hlen : body.length < INT_LEN - 1) (harrivals : Stream.Interruptible ⟨body ++ [10], arrivals⟩)
    (hfuel : Stream.calls_left ⟨body ++ [10], arrivals⟩ < fuel) :
    receive fuel ⟨body ++ [10], arrivals⟩ = .ok (.printed (ascii "Sequence number: " ++ (body ++ [10]))) := by
  obtain ⟨fd', hread, -⟩ := readLine_line (by decide : 2 ≤ INT_LEN) harrivals hfuel
  rw [take_line hline hlen] at hread
  have hne : body ++ [10] ≠ [] := List.append_ne_nil_of_right_ne_nil _ (List.cons_ne_nil _ _)
  have hstring : string (body ++ [10] ++ [0]) = body ++ [10] := by
    rw [string, takeWhile_concat (by decide), ← string, string_line hzero]
  rw [receive, hread, exec_bind_ok]
  simp only [terminated, if_neg hne, hstring, List.length_append, List.length_singleton, Nat.add_one_ne_zero, if_false]

end Client

section Service

/-- What one connection does to the counter, and what it gets. -/
def serve_call (seqNum : Nat) (cfd : Stream) : Nat × Option (List UInt8) :=
  (seqNum + granted cfd, if granted cfd = 0 then none else some (seqNumStr seqNum))

/-- The number that comes after all that was granted before the `i`th connection. -/
def start_of (init : Nat) (connections : List Stream) (i : Nat) : Nat :=
  init + ((connections.take i).map granted).sum

theorem answers_serve_call (init : Nat) (connections : List Stream) :
    (answers serve_call init connections).1 = init + (connections.map granted).sum ∧
      ∀ i cfd, connections[i]? = some cfd →
        (answers serve_call init connections).2[i]? =
          some (serve_call (start_of init connections i) cfd).2 := by
  induction connections generalizing init with
  | nil => exact ⟨rfl, fun i cfd h => by cases h⟩
  | cons first rest ih =>
    obtain ⟨hcount, hanswers⟩ := ih (serve_call init first).1
    refine ⟨?_, ?_⟩
    · rw [answers, hcount, serve_call, List.map_cons, List.sum_cons, Nat.add_assoc]
    · intro i cfd hi
      cases i with
      | zero =>
        cases hi
        rfl
      | succ i =>
        rw [List.getElem?_cons_succ] at hi
        rw [answers, List.getElem?_cons_succ, hanswers i cfd hi, start_of, start_of, List.take_succ_cons,
          List.map_cons, List.sum_cons, ← Nat.add_assoc]
        rfl

theorem seqNumStr_mod (n : Nat) : seqNumStr (n % 2 ^ 32) = seqNumStr n := by
  rw [seqNumStr, seqNumStr, Int.natCast_emod, Int.emod_bmod]

/-- The connections that are served one after the other get consecutive numbers: each that is
    granted some is told the first of them, which comes after all that was granted before, and
    all others are told nothing and change nothing. A client that asks for a number of numbers is
    granted it, and a client prints what it is told. All this for every way in which the bytes
    come in at both sides. -/
theorem seqnum_served (init : Nat) (connections : List Stream) (fuel : Nat)
    (hconnections : ∀ cfd ∈ connections, cfd.Interruptible ∧ cfd.calls_left < fuel) :
    ∃ outs, calls (serve fuel) (init % 2 ^ 32) connections =
        .ok ((init + (connections.map granted).sum) % 2 ^ 32, outs) ∧
      ∀ i cfd, connections[i]? = some cfd →
        outs[i]? = some (if granted cfd = 0 then none else some (told (start_of init connections i) ++ [10])) ∧
        (∀ reqLen, cfd.left = request (numeral 10 reqLen) → reqLen < 2 ^ 31 → granted cfd = reqLen) ∧
        ∀ arrivals fuel, Stream.Interruptible ⟨told (start_of init connections i) ++ [10], arrivals⟩ →
          Stream.calls_left ⟨told (start_of init connections i) ++ [10], arrivals⟩ < fuel →
          receive fuel ⟨told (start_of init connections i) ++ [10], arrivals⟩ =
            .ok (.printed (ascii "Sequence number: " ++ (told (start_of init connections i) ++ [10]))) := by
  have hcall : ∀ (seqNum n : Nat) (cfd : Stream), seqNum = n % 2 ^ 32 →
      cfd.Interruptible ∧ cfd.calls_left < fuel →
      ∃ seqNum', serve fuel seqNum cfd = .ok (seqNum', (serve_call n cfd).2) ∧
        seqNum' = (serve_call n cfd).1 % 2 ^ 32 := by
    rintro _ n cfd rfl ⟨hfd, hfuel⟩
    refine ⟨_, serve_granted hfd hfuel (Nat.mod_lt _ (by decide)) |>.trans ?_, Nat.mod_add_mod _ _ _⟩
    rw [seqNumStr_mod, serve_call]
  obtain ⟨seqNum, hcalls, hseq⟩ := calls_refine hcall (rfl : init % 2 ^ 32 = init % 2 ^ 32) hconnections
  obtain ⟨hcount, hanswers⟩ := answers_serve_call init connections
  rw [hcount] at hseq
  refine ⟨_, hseq ▸ hcalls, ?_⟩
  intro i cfd hi
  refine ⟨?_, ?_, ?_⟩
  · rw [hanswers i cfd hi, serve_call, seqNumStr_eq]
  · intro reqLen hleft hreq
    have hgranted := granted_request hreq cfd.arrivals
    rwa [← hleft] at hgranted
  · intro arrivals fuel harrivals hfuel
    obtain ⟨hzero, hline, hlen⟩ := told_line (start_of init connections i)
    exact receive_line hzero hline (Nat.lt_of_le_of_lt hlen (by decide)) harrivals hfuel

/-- Behind the largest `int` the second client is told a negative number. -/
theorem seqnum_served_two : ∃ outs,
    calls (serve 20) (2147483647 % 2 ^ 32) [⟨request (numeral 10 1), []⟩, ⟨request (numeral 10 7), [.bytes 1]⟩] =
      .ok (2147483655 % 2 ^ 32, outs) ∧
    outs[1]? = some (some (told 2147483648 ++ [10])) := by
  obtain ⟨outs, hcalls, houts⟩ :=
    seqnum_served 2147483647 [⟨request (numeral 10 1), []⟩, ⟨request (numeral 10 7), [.bytes 1]⟩] 20
      (by simp [Stream.Interruptible, Stream.calls_left, request, numeral])
  have hone : granted ⟨request (numeral 10 1), []⟩ = 1 := granted_request (by decide) _
  have hseven : granted ⟨request (numeral 10 7), [.bytes 1]⟩ = 7 := granted_request (by decide) _
  refine ⟨outs, ?_, ?_⟩
  · rw [hcalls]
    simp [hone, hseven]
  · rw [(houts 1 _ rfl).1, hseven]
    simp [start_of, hone]

end Service

end tlpi.is_seqnum
