import Tlpi.Io.Rwv

namespace tlpi.rwv

open tlpi.mylib

/-- A descriptor whose `read` calls deliver what a schedule says: the bytes that are still to
    come, and the number of calls made. At the end of the stream a `read` returns 0. -/
structure Source where
  left : List UInt8
  calls : Nat

def Source.read (deliver : Nat → Nat → Nat) (file : Source) (requested : Nat) :
    Source × Option (List UInt8) :=
  let most := min requested file.left.length
  let n := if most = 0 then 0 else deliver file.calls most
  ({ left := file.left.drop n, calls := file.calls + 1 }, some (file.left.take n))

/-- The sizes of the reads by which a schedule delivers so many bytes, from a call on. Each of
    them takes at least a byte, so that as much fuel is enough. -/
def reads (deliver : Nat → Nat → Nat) : Nat → Nat → Nat → List Nat
  | 0, _, _ => []
  | fuel + 1, want, call =>
    if want = 0 then []
    else deliver call want :: reads deliver fuel (want - deliver call want) (call + 1)

/-- How many bytes a segment gets from a stream. -/
def share (seg stream : List UInt8) : Nat := min seg.length stream.length

/-- The sizes of the reads that bring a segment's bytes. -/
def segmentReads (deliver : Nat → Nat → Nat) (call : Nat) (seg stream : List UInt8) : List Nat :=
  reads deliver (share seg stream) (share seg stream) call

/-- The segment when reads of these sizes have been stored, the first of them at an offset and
    each of the others at the size of the one before it. `start` counts the bytes that the
    stream has delivered. -/
def stored (stream : List UInt8) : List UInt8 → Nat → Nat → List Nat → List UInt8
  | seg, _, _, [] => seg
  | seg, offset, start, n :: sizes =>
    stored stream (seg.take offset ++ (stream.drop start).take n ++ seg.drop (offset + n)) n (start + n)
      sizes

/-- The index in the stream of the byte that ends at a position of the segment: the last read
    that is stored over the position counts. -/
def landing (pos : Nat) : Nat → Nat → List Nat → Option Nat
  | _, _, [] => none
  | offset, start, n :: sizes =>
    (landing pos n (start + n) sizes).or
      (if offset ≤ pos ∧ pos < offset + n then some (start + (pos - offset)) else none)

/-- Each byte of a segment's share of the stream is in its place: the read that is stored over it
    last brings an equal byte, or no read is stored over it and the segment held it already. -/
def SegmentInPlace (deliver : Nat → Nat → Nat) (call : Nat) (seg stream : List UInt8) : Prop :=
  ∀ pos < share seg stream,
    match landing pos 0 0 (segmentReads deliver call seg stream) with
    | some index => stream[index]? = stream[pos]?
    | none => seg[pos]? = stream[pos]?

/-- The same for all segments, one after the other. -/
def InPlace (deliver : Nat → Nat → Nat) : Nat → List UInt8 → List (List UInt8) → Prop
  | _, _, [] => True
  | call, stream, seg :: rest =>
    SegmentInPlace deliver call seg stream ∧
      InPlace deliver (call + (segmentReads deliver call seg stream).length) (stream.drop seg.length) rest

/-- No segment takes more than two reads. -/
def AtMostTwoReads (deliver : Nat → Nat → Nat) : Nat → List UInt8 → List (List UInt8) → Prop
  | _, _, [] => True
  | call, stream, seg :: rest =>
    (segmentReads deliver call seg stream).length ≤ 2 ∧
      AtMostTwoReads deliver (call + (segmentReads deliver call seg stream).length) (stream.drop seg.length) rest

/-- The segments when the stream has been scattered over them. -/
def scattered (deliver : Nat → Nat → Nat) : Nat → List UInt8 → List (List UInt8) → List (List UInt8)
  | _, _, [] => []
  | call, stream, seg :: rest =>
    stored stream seg 0 0 (segmentReads deliver call seg stream) ::
      scattered deliver (call + (segmentReads deliver call seg stream).length) (stream.drop seg.length) rest

section Stored

variable (stream : List UInt8)

/-- What a segment holds when bytes have been stored at an offset. -/
theorem getElem?_store {seg bytes : List UInt8} {offset : Nat}
    (hfits : offset + bytes.length ≤ seg.length) (pos : Nat) :
    (seg.take offset ++ bytes ++ seg.drop (offset + bytes.length))[pos]? =
      if offset ≤ pos ∧ pos < offset + bytes.length then bytes[pos - offset]? else seg[pos]? := by
  have hfront : (seg.take offset).length = offset := by
    rw [List.length_take]
    omega
  rw [List.append_assoc, List.getElem?_append, hfront]
  by_cases hbefore : pos < offset
  · rw [if_pos hbefore, if_neg (by omega), List.getElem?_take_of_lt hbefore]
  · rw [if_neg hbefore, List.getElem?_append]
    by_cases hinside : pos - offset < bytes.length
    · rw [if_pos hinside, if_pos (by omega)]
    · rw [if_neg hinside, if_neg (by omega), List.getElem?_drop]
      congr 1
      omega

theorem store_length {seg bytes : List UInt8} {offset : Nat}
    (hfits : offset + bytes.length ≤ seg.length) :
    (seg.take offset ++ bytes ++ seg.drop (offset + bytes.length)).length = seg.length := by
  simp only [List.length_append, List.length_take, List.length_drop]
  omega

theorem take_drop_length {start n : Nat} (h : start + n ≤ stream.length) :
    ((stream.drop start).take n).length = n := by
  rw [List.length_take, List.length_drop]
  omega

theorem stored_length (seg : List UInt8) {offset start : Nat} {sizes : List Nat} (hoffset : offset ≤ start)
    (hseg : start + sizes.sum ≤ seg.length) (hstream : start + sizes.sum ≤ stream.length) :
    (stored stream seg offset start sizes).length = seg.length := by
  induction sizes generalizing seg offset start with
  | nil => rfl
  | cons n sizes ih =>
    rw [List.sum_cons] at hseg hstream
    have hbytes := take_drop_length stream (show start + n ≤ stream.length by omega)
    have hfits : offset + ((stream.drop start).take n).length ≤ seg.length := by omega
    have hlength := store_length hfits
    rw [hbytes] at hlength
    rw [stored, ih _ (by omega) (by omega) (by omega), hlength]

/-- The reads that are stored over a position decide what it holds, and the last of them wins. -/
theorem stored_getElem? (seg : List UInt8) {offset start : Nat} {sizes : List Nat}
    (hoffset : offset ≤ start) (hseg : start + sizes.sum ≤ seg.length)
    (hstream : start + sizes.sum ≤ stream.length) (pos : Nat) :
    (stored stream seg offset start sizes)[pos]? =
      match landing pos offset start sizes with
      | some index => stream[index]?
      | none => seg[pos]? := by
  induction sizes generalizing seg offset start with
  | nil => rfl
  | cons n sizes ih =>
    rw [List.sum_cons] at hseg hstream
    have hbytes := take_drop_length stream (show start + n ≤ stream.length by omega)
    have hfits : offset + ((stream.drop start).take n).length ≤ seg.length := by omega
    have hlength := store_length hfits
    have hget := getElem?_store hfits pos
    rw [hbytes] at hlength hget
    rw [stored, ih _ (by omega) (by omega) (by omega), landing]
    cases landing pos n (start + n) sizes with
    | some index => rfl
    | none =>
      rw [Option.none_or, hget]
      by_cases hinside : offset ≤ pos ∧ pos < offset + n
      · rw [if_pos hinside, if_pos hinside, List.getElem?_take_of_lt (by omega), List.getElem?_drop]
      · rw [if_neg hinside, if_neg hinside]

end Stored

section Reads

variable {deliver : Nat → Nat → Nat}

theorem reads_zero (fuel call : Nat) : reads deliver fuel 0 call = [] := by
  cases fuel <;> rfl

theorem reads_sum (hsched : Progressing deliver) {fuel want : Nat} (call : Nat) (hfuel : want ≤ fuel) :
    (reads deliver fuel want call).sum = want := by
  induction fuel generalizing want call with
  | zero =>
    obtain rfl : want = 0 := by omega
    rfl
  | succ fuel ih =>
    rw [reads]
    by_cases hwant : want = 0
    · rw [if_pos hwant, hwant]
      rfl
    · obtain ⟨hpos, hle⟩ := hsched call want (by omega)
      rw [if_neg hwant, List.sum_cons, ih (call + 1) (by omega)]
      omega

theorem segmentReads_sum (hsched : Progressing deliver) (call : Nat) (seg stream : List UInt8) :
    (segmentReads deliver call seg stream).sum = share seg stream :=
  reads_sum hsched call (le_refl _)

/-- Once the stream has ended, no segment gets any bytes. -/
theorem segmentReads_nil (call : Nat) (seg : List UInt8) : segmentReads deliver call seg [] = [] := by
  simp [segmentReads, share, reads_zero]

theorem scattered_nil (call : Nat) (iov : List (List UInt8)) : scattered deliver call [] iov = iov := by
  induction iov generalizing call with
  | nil => rfl
  | cons seg rest ih => rw [scattered, segmentReads_nil, stored, List.drop_nil, ih]

theorem segment_length (hsched : Progressing deliver) (call : Nat) (seg stream : List UInt8) :
    (stored stream seg 0 0 (segmentReads deliver call seg stream)).length = seg.length := by
  have hsum := segmentReads_sum hsched call seg stream
  unfold share at hsum
  exact stored_length stream seg (le_refl 0) (by omega) (by omega)

theorem scattered_lengths (hsched : Progressing deliver) (call : Nat) (stream : List UInt8)
    (iov : List (List UInt8)) :
    (scattered deliver call stream iov).map List.length = iov.map List.length := by
  induction iov generalizing call stream with
  | nil => rfl
  | cons seg rest ih => rw [scattered, List.map_cons, List.map_cons, segment_length hsched, ih]

/-- A segment holds its share of the stream if and only if each byte of it is in its place. -/
theorem segment_take_iff (hsched : Progressing deliver) (call : Nat) (seg stream : List UInt8) :
    (stored stream seg 0 0 (segmentReads deliver call seg stream)).take (share seg stream) =
        stream.take (share seg stream) ↔
      SegmentInPlace deliver call seg stream := by
  have hsum := segmentReads_sum hsched call seg stream
  have hseg : 0 + (segmentReads deliver call seg stream).sum ≤ seg.length := by
    unfold share at hsum
    omega
  have hstream : 0 + (segmentReads deliver call seg stream).sum ≤ stream.length := by
    unfold share at hsum
    omega
  have hget (pos : Nat) := stored_getElem? stream seg (le_refl 0) hseg hstream pos
  constructor
  · intro heq pos hpos
    have hpoint := congrArg (fun l => l[pos]?) heq
    simp only [List.getElem?_take_of_lt hpos, hget] at hpoint
    cases hland : landing pos 0 0 (segmentReads deliver call seg stream) with
    | some index => simpa [hland] using hpoint
    | none => simpa [hland] using hpoint
  · intro hplace
    apply List.ext_getElem?
    intro pos
    by_cases hpos : pos < share seg stream
    · have hpoint := hplace pos hpos
      rw [List.getElem?_take_of_lt hpos, List.getElem?_take_of_lt hpos, hget]
      cases hland : landing pos 0 0 (segmentReads deliver call seg stream) with
      | some index => simpa [hland] using hpoint
      | none => simpa [hland] using hpoint
    · rw [List.getElem?_take_eq_none (by omega), List.getElem?_take_eq_none (by omega)]

/-- The segments hold the beginning of the stream if and only if all bytes are in their places. -/
theorem scattered_take_iff (hsched : Progressing deliver) (call : Nat) (stream : List UInt8)
    (iov : List (List UInt8)) :
    (scattered deliver call stream iov).flatten.take (min iov.flatten.length stream.length) =
        stream.take (min iov.flatten.length stream.length) ↔
      InPlace deliver call stream iov := by
  induction iov generalizing call stream with
  | nil => simp [scattered, InPlace]
  | cons seg rest ih =>
    have hlength := segment_length hsched call seg stream
    have hfirst := segment_take_iff hsched call seg stream
    rw [scattered, InPlace, List.flatten_cons, List.flatten_cons, List.length_append, ← hfirst, ← ih]
    by_cases hshort : stream.length < seg.length
    · -- the stream ends in this segment
      have hmin : min (seg.length + rest.flatten.length) stream.length = stream.length := by omega
      have hshare : share seg stream = stream.length := by
        unfold share
        omega
      rw [hmin, hshare, List.take_append_of_le_length (by omega), List.drop_eq_nil_of_le hshort.le]
      simp
    · have hmin : min (seg.length + rest.flatten.length) stream.length =
          seg.length + min rest.flatten.length (stream.drop seg.length).length := by
        rw [List.length_drop]
        omega
      have hshare : share seg stream = seg.length := by
        unfold share
        omega
      have hwhole := List.take_of_length_le hlength.le
      have hfilled : (stream.take seg.length).length = seg.length := by
        rw [List.length_take]
        omega
      have hcut (rest' : List UInt8) (k : Nat) :
          (stored stream seg 0 0 (segmentReads deliver call seg stream) ++ rest').take (seg.length + k) =
            stored stream seg 0 0 (segmentReads deliver call seg stream) ++ rest'.take k := by
        rw [← hlength, List.take_length_add_append]
      rw [hmin, hshare, hwhole, hcut, List.take_add]
      constructor
      · intro heq
        exact List.append_inj heq (hlength.trans hfilled.symm)
      · rintro ⟨hseg, hrest⟩
        rw [hseg, hrest]

end Reads

section Segment

variable {deliver : Nat → Nat → Nat} {stream : List UInt8} {start len : Nat}

/-- A `read` before the end of the stream. -/
theorem Source.read_next (deliver : Nat → Nat → Nat) (call : Nat) (hstart : start < stream.length)
    (hlen : start < len) :
    Source.read deliver ⟨stream.drop start, call⟩ (len - start) =
      (⟨stream.drop (start + deliver call (min len stream.length - start)), call + 1⟩,
        some ((stream.drop start).take (deliver call (min len stream.length - start)))) := by
  have hmost : min (len - start) (stream.drop start).length = min len stream.length - start := by
    rw [List.length_drop]
    omega
  simp only [Source.read, hmost]
  rw [if_neg (by omega), List.drop_drop]

/-- A `read` at the end of the stream. -/
theorem Source.read_end (deliver : Nat → Nat → Nat) (call requested : Nat) :
    Source.read deliver ⟨[], call⟩ requested = (⟨[], call + 1⟩, some []) := by
  simp [Source.read]

/-- What the inner loop of `xreadv` leaves behind when it has filled its segment, or the stream
    has ended. -/
structure SegmentDone (stream seg : List UInt8) (offset start call : Nat) (total : Int) (sizes : List Nat)
    (state : SegmentRead Source) : Prop where
  bytes : state.seg = stored stream seg offset start sizes
  total_read : state.total_read = total + (min seg.length stream.length - start : Nat)
  full : seg.length ≤ stream.length →
    0 < state.num_read ∧ state.file = ⟨stream.drop seg.length, call + sizes.length⟩
  short : stream.length < seg.length → state.num_read = 0

/-- One more read before. -/
theorem SegmentDone.step {seg : List UInt8} {offset n call : Nat} {total : Int} {sizes : List Nat}
    {state : SegmentRead Source}
    (h : SegmentDone stream (seg.take offset ++ (stream.drop start).take n ++ seg.drop (offset + n)) n
      (start + n) (call + 1) (total + n) sizes state)
    (hlength : (seg.take offset ++ (stream.drop start).take n ++ seg.drop (offset + n)).length = seg.length)
    (hfits : start + n ≤ min seg.length stream.length) :
    SegmentDone stream seg offset start call total (n :: sizes) state := by
  obtain ⟨hbytes, htotal, hfull, hshort⟩ := h
  rw [hlength] at htotal hfull hshort
  refine ⟨hbytes, by omega, fun hle => ?_, hshort⟩
  obtain ⟨hpos, hfile⟩ := hfull hle
  refine ⟨hpos, ?_⟩
  rw [hfile, List.length_cons]
  congr 1
  omega

/-- The inner loop at the end of the stream. -/
theorem xreadv_segment_end (seg : List UInt8) (fuel offset call : Nat) (total : Int)
    (hlen : stream.length < seg.length) :
    ∃ state, loop (xreadv_body (Source.read deliver)) (fuel + 1)
        ⟨⟨stream.drop stream.length, call⟩, seg, ((seg.length - stream.length : Nat) : Int), total,
          offset⟩ = .ok state ∧
      SegmentDone stream seg offset stream.length call total [] state := by
  refine ⟨⟨⟨[], call + 1⟩, seg, ((seg.length - stream.length : Nat) : Int), total, 0⟩, loop_done ?_, ?_⟩
  · rw [List.drop_length]
    simp [xreadv_body, Source.read_end]
  · exact ⟨rfl, by simp [Nat.min_eq_right hlen.le], fun hle => by omega, fun _ => rfl⟩

/-- One iteration of the inner loop before the end of the stream. -/
theorem xreadv_body_next (hsched : Progressing deliver) (seg : List UInt8) {offset n : Nat} (call : Nat)
    (total : Int) (hoffset : offset ≤ start) (hlen : start < seg.length) (hstart : start < stream.length)
    (hn : deliver call (min seg.length stream.length - start) = n) :
    xreadv_body (Source.read deliver)
        ⟨⟨stream.drop start, call⟩, seg, ((seg.length - start : Nat) : Int), total, offset⟩ =
      .ok (if start + n = seg.length then
        .done ⟨⟨stream.drop (start + n), call + 1⟩,
          seg.take offset ++ (stream.drop start).take n ++ seg.drop (offset + n),
          ((seg.length - (start + n) : Nat) : Int), total + n, n⟩
      else .cont ⟨⟨stream.drop (start + n), call + 1⟩,
          seg.take offset ++ (stream.drop start).take n ++ seg.drop (offset + n),
          ((seg.length - (start + n) : Nat) : Int), total + n, n⟩) := by
  obtain ⟨hpos, hle⟩ := hsched call (min seg.length stream.length - start) (by omega)
  have hread := Source.read_next deliver call hstart hlen
  rw [hn] at hpos hle hread
  have hbytes := take_drop_length stream (show start + n ≤ stream.length by omega)
  have hcount : ((seg.length - start : Nat) : Int) - n = ((seg.length - (start + n) : Nat) : Int) := by
    omega
  simp only [xreadv_body, Int.toNat_natCast, hread, hbytes, hcount]
  rw [if_neg (by omega), store_bytes, hbytes, if_pos (by omega), exec_bind_ok]
  by_cases hfull : start + n = seg.length
  · rw [if_pos (by omega), if_pos hfull]
  · rw [if_neg (by omega), if_neg hfull]

/-- The inner loop of `xreadv`, after some reads. The offset at which the next one is stored is
    the size of the last one. -/
theorem xreadv_segment_from (hsched : Progressing deliver) (budget fuel : Nat) (seg : List UInt8)
    {offset : Nat} (call : Nat) (total : Int) (hoffset : offset ≤ start) (hlen : start < seg.length)
    (hstart : start ≤ stream.length) (hbudget : min seg.length stream.length - start ≤ budget)
    (hfuel : min seg.length stream.length - start ≤ fuel) :
    ∃ state, loop (xreadv_body (Source.read deliver)) (fuel + 1)
        ⟨⟨stream.drop start, call⟩, seg, ((seg.length - start : Nat) : Int), total, offset⟩ = .ok state ∧
      SegmentDone stream seg offset start call total
        (reads deliver budget (min seg.length stream.length - start) call) state := by
  induction budget generalizing seg start offset call total fuel with
  | zero =>
    obtain rfl : start = stream.length := by omega
    exact xreadv_segment_end seg fuel offset call total hlen
  | succ budget ih =>
    by_cases hend : start = stream.length
    · have hnone : min seg.length stream.length - start = 0 := by omega
      rw [hnone, reads_zero]
      subst hend
      exact xreadv_segment_end seg fuel offset call total hlen
    · obtain ⟨hpos, hle⟩ := hsched call (min seg.length stream.length - start) (by omega)
      rw [reads, if_neg (by omega)]
      generalize hn : deliver call (min seg.length stream.length - start) = n at hpos hle ⊢
      have hbody := xreadv_body_next hsched seg call total hoffset hlen
        (show start < stream.length by omega) hn
      have hwant : min seg.length stream.length - start - n =
          min seg.length stream.length - (start + n) := by omega
      by_cases hfull : start + n = seg.length
      · -- this read fills the segment
        rw [if_pos hfull] at hbody
        have hlast : min seg.length stream.length - start - n = 0 := by omega
        rw [hlast, reads_zero]
        refine ⟨_, loop_done hbody, rfl, ?_, fun _ => ⟨?_, ?_⟩, fun hlt => ?_⟩
        · rw [show min seg.length stream.length - start = n by omega]
        · exact Int.natCast_pos.mpr hpos
        · rw [hfull]
          rfl
        · omega
      · rw [if_neg hfull] at hbody
        have hbytes := take_drop_length stream (show start + n ≤ stream.length by omega)
        have hfits : offset + ((stream.drop start).take n).length ≤ seg.length := by omega
        have hlength := store_length hfits
        rw [hbytes] at hlength
        obtain ⟨fuel, rfl⟩ : ∃ f, fuel = f + 1 := ⟨fuel - 1, by omega⟩
        obtain ⟨state, hloop, hdone⟩ := ih fuel _ (call + 1) (total + n)
          (show n ≤ start + n by omega) (by rw [hlength]; omega) (by omega) (by rw [hlength]; omega)
          (by rw [hlength]; omega)
        rw [hlength, ← hwant] at hdone
        rw [hlength] at hloop
        refine ⟨state, ?_, hdone.step hlength (by omega)⟩
        rw [loop_cont hbody, hloop]

end Segment

section Scatter

variable {deliver : Nat → Nat → Nat}

/-- Filling one segment from its beginning. -/
theorem xreadv_segment (hsched : Progressing deliver) {seg : List UInt8} (hseg : seg ≠ [])
    (stream : List UInt8) (call : Nat) (total : Int) :
    ∃ state, loop (xreadv_body (Source.read deliver)) (seg.length + 1)
        { file := ⟨stream, call⟩, seg, count := seg.length, total_read := total, num_read := 0 } =
          .ok state ∧
      SegmentDone stream seg 0 0 call total (segmentReads deliver call seg stream) state := by
  have hpos : 0 < seg.length := List.length_pos_iff.mpr hseg
  have hfrom := xreadv_segment_from hsched (share seg stream) seg.length seg call total (le_refl 0) hpos
    (Nat.zero_le stream.length) (by rw [share, Nat.sub_zero]) (by omega)
  rw [List.drop_zero, Nat.sub_zero, Nat.sub_zero] at hfrom
  exact hfrom

/-- What `xreadv` does under short reads: it always returns what the segments can hold of the
    stream, and stores the bytes where the sizes of the reads put them. -/
theorem xreadv_loop_source (hsched : Progressing deliver) (stream : List UInt8) (call total : Nat)
    (iov : List (List UInt8)) (hne : ∀ seg ∈ iov, seg ≠ []) :
    ∃ after, xreadv_loop (Source.read deliver) ⟨stream, call⟩ total iov =
      .ok (after, ((total + min iov.flatten.length stream.length : Nat) : Int),
        scattered deliver call stream iov) := by
  induction iov generalizing stream call total with
  | nil => exact ⟨⟨stream, call⟩, by simp [xreadv_loop, scattered]⟩
  | cons seg rest ih =>
    obtain ⟨state, hloop, hdone⟩ := xreadv_segment hsched (hne seg (by simp)) stream call total
    have htotal := hdone.total_read
    rw [xreadv_loop, hloop, exec_bind_ok, scattered, ← hdone.bytes, List.flatten_cons, List.length_append]
    by_cases hshort : stream.length < seg.length
    · have hzero := hdone.short hshort
      refine ⟨state.file, ?_⟩
      rw [if_neg (by omega), if_pos hzero, htotal, List.drop_eq_nil_of_le hshort.le, scattered_nil]
      congr 3
      omega
    · obtain ⟨hpos, hfile⟩ := hdone.full (by omega)
      obtain ⟨after, hrest⟩ := ih (stream.drop seg.length)
        (call + (segmentReads deliver call seg stream).length) (total + seg.length)
        (fun other hmem => hne other (by simp [hmem]))
      refine ⟨after, ?_⟩
      have htotal' : state.total_read = ((total + seg.length : Nat) : Int) := by omega
      have hsum : total + seg.length + min rest.flatten.length (stream.drop seg.length).length =
          total + min (seg.length + rest.flatten.length) stream.length := by
        rw [List.length_drop]
        omega
      rw [hsum] at hrest
      rw [if_neg (by omega), if_neg (by omega), hfile, htotal', hrest, exec_bind_ok]

/-- `xreadv` fills the segments with the beginning of the stream, whatever the sizes of the
    reads, if and only if the byte that ends at each position is the right one. -/
theorem xreadv_fills_iff (hsched : Progressing deliver) (stream : List UInt8) (iov : List (List UInt8))
    (hne : ∀ seg ∈ iov, seg ≠ []) :
    (∃ after segs, xreadv (Source.read deliver) ⟨stream, 0⟩ iov =
        .ok (after, ((min iov.flatten.length stream.length : Nat) : Int), segs) ∧
      segs.map List.length = iov.map List.length ∧
      segs.flatten.take (min iov.flatten.length stream.length) =
        stream.take (min iov.flatten.length stream.length)) ↔
      InPlace deliver 0 stream iov := by
  obtain ⟨after, hrun⟩ := xreadv_loop_source hsched stream 0 0 iov hne
  rw [Nat.zero_add] at hrun
  have hrun : xreadv (Source.read deliver) ⟨stream, 0⟩ iov = _ := hrun
  rw [← scattered_take_iff hsched, hrun]
  constructor
  · rintro ⟨after', segs, heq, _, hbytes⟩
    simp only [Except.ok.injEq, Prod.mk.injEq, true_and] at heq
    rw [heq.2]
    exact hbytes
  · intro hbytes
    exact ⟨after, _, rfl, scattered_lengths hsched 0 stream iov, hbytes⟩

/-- The first two reads of a segment are stored where they belong. -/
theorem landing_of_two {sizes : List Nat} {pos : Nat} (htwo : sizes.length ≤ 2) (hpos : pos < sizes.sum) :
    landing pos 0 0 sizes = some pos := by
  match sizes, htwo with
  | [], _ => simp at hpos
  | [n], _ =>
    simp only [List.sum_cons, List.sum_nil] at hpos
    simp only [landing, Option.none_or]
    rw [if_pos (by omega)]
    congr 1
    omega
  | [n, m], _ =>
    simp only [List.sum_cons, List.sum_nil] at hpos
    simp only [landing, Option.none_or]
    by_cases hfirst : pos < n
    · rw [if_neg (by omega), Option.none_or, if_pos (by omega)]
      congr 1
      omega
    · rw [if_pos (by omega), Option.some_or]
      congr 1
      omega

/-- A segment that takes at most two reads gets its share of the stream right. -/
theorem segmentInPlace_of_two (hsched : Progressing deliver) {call : Nat} {seg stream : List UInt8}
    (htwo : (segmentReads deliver call seg stream).length ≤ 2) :
    SegmentInPlace deliver call seg stream := by
  intro pos hpos
  have hsum := segmentReads_sum hsched call seg stream
  rw [landing_of_two htwo (by omega)]

theorem inPlace_of_two (hsched : Progressing deliver) {call : Nat} {stream : List UInt8} {iov : List (List UInt8)}
    (htwo : AtMostTwoReads deliver call stream iov) : InPlace deliver call stream iov := by
  induction iov generalizing call stream with
  | nil => trivial
  | cons seg rest ih => exact ⟨segmentInPlace_of_two hsched htwo.1, ih htwo.2⟩

/-- Where no segment takes more than two reads, `xreadv` fills the segments with the beginning of
    the stream. -/
theorem xreadv_fills_of_two (hsched : Progressing deliver) (stream : List UInt8) (iov : List (List UInt8))
    (hne : ∀ seg ∈ iov, seg ≠ []) (htwo : AtMostTwoReads deliver 0 stream iov) :
    ∃ after segs, xreadv (Source.read deliver) ⟨stream, 0⟩ iov =
        .ok (after, ((min iov.flatten.length stream.length : Nat) : Int), segs) ∧
      segs.map List.length = iov.map List.length ∧
      segs.flatten.take (min iov.flatten.length stream.length) =
        stream.take (min iov.flatten.length stream.length) := by
  obtain ⟨after, hrun⟩ := xreadv_loop_source hsched stream 0 0 iov hne
  rw [Nat.zero_add] at hrun
  exact ⟨after, _, hrun, scattered_lengths hsched 0 stream iov,
    (scattered_take_iff hsched 0 stream iov).mpr (inPlace_of_two hsched htwo)⟩

end Scatter

/-- A kernel whose first `read` is a short one. -/
def firstShort (call requested : Nat) : Nat := if call = 0 then 1 else requested

theorem firstShort_progressing : Progressing firstShort := by
  intro call requested hpos
  unfold firstShort
  split <;> omega

/-- With one short read the segment is filled. -/
theorem xreadv_fills_firstShort :
    ∃ after segs, xreadv (Source.read firstShort) ⟨[1, 2, 3], 0⟩ [[0, 0, 0]] =
        .ok (after, (3 : Int), segs) ∧
      segs.map List.length = [3] ∧ segs.flatten.take 3 = [1, 2, 3] :=
  (xreadv_fills_iff firstShort_progressing [1, 2, 3] [[0, 0, 0]] (by simp)).mpr
    ⟨segmentInPlace_of_two firstShort_progressing (by decide), trivial⟩

/-- Byte by byte, the third byte is stored over the second one. -/
theorem xreadv_byteByByte_misplaces :
    ¬∃ after segs, xreadv (Source.read byteByByte) ⟨[1, 2, 3], 0⟩ [[0, 0, 0]] =
        .ok (after, (3 : Int), segs) ∧
      segs.map List.length = [3] ∧ segs.flatten.take 3 = [1, 2, 3] := by
  have hrun : xreadv (Source.read byteByByte) ⟨[1, 2, 3], 0⟩ [[0, 0, 0]] =
      .ok (⟨[], 3⟩, (3 : Int), [[1, 3, 0]]) := rfl
  rintro ⟨after, segs, heq, _, hbytes⟩
  rw [hrun] at heq
  simp only [Except.ok.injEq, Prod.mk.injEq, true_and] at heq
  rw [← heq.2] at hbytes
  exact absurd hbytes (by decide)

section Empty

variable {file : File} {seg : List UInt8}

/-- A `read` that stores nothing ends `xreadv`, be it at the end of the file or for an empty
    segment. -/
theorem xreadv_loop_stops (h : seg = [] ∨ file.left = []) (total : Int) (rest : List (List UInt8)) :
    xreadv_loop File.read file total (seg :: rest) = .ok (file, total, seg :: rest) := by
  have hread : file.read seg.length = (file, some []) := by
    have hbytes : (file.content.drop file.offset).take seg.length = [] := by
      obtain rfl | hend := h
      · rfl
      · have hend : file.content.drop file.offset = [] := hend
        rw [hend, List.take_nil]
    simp [File.read, hbytes]
  have hbody : xreadv_body File.read
      { file, seg, count := seg.length, total_read := total, num_read := 0 } =
      .ok (.done { file, seg, count := seg.length, total_read := total, num_read := 0 }) := by
    simp only [xreadv_body, Int.toNat_natCast, hread]
    rfl
  rw [xreadv_loop, loop_done hbody, exec_bind_ok, if_neg (Int.lt_irrefl 0), if_pos rfl]

/-- A segment for which the file has enough bytes is filled, and the loop goes on. -/
theorem xreadv_loop_fills (hseg : seg ≠ []) (hleft : seg.length ≤ file.left.length) (total : Int)
    (rest : List (List UInt8)) :
    xreadv_loop File.read file total (seg :: rest) =
      (xreadv_loop File.read (file.read seg.length).1 (total + seg.length) rest >>= fun r =>
        .ok (r.1, r.2.1, file.left.take seg.length :: r.2.2)) := by
  have hpos : 0 < seg.length := List.length_pos_iff.mpr hseg
  rw [xreadv_loop, xreadv_segment_full hseg total hleft, exec_bind_ok]
  simp only
  rw [if_neg (by omega), if_neg (by omega)]

/-- A segment for which the file has too few bytes is the last one. -/
theorem xreadv_loop_short (hleft : file.left.length < seg.length) (total : Int) :
    ∃ after seg', ∀ rest, xreadv_loop File.read file total (seg :: rest) =
      .ok (after, total + file.left.length, seg' :: rest) := by
  obtain ⟨state, hloop, hzero, htotal, _⟩ := xreadv_segment_short seg total hleft
  refine ⟨state.file, state.seg, fun rest => ?_⟩
  rw [xreadv_loop, hloop, exec_bind_ok, if_neg (by omega), if_pos hzero, htotal]

/-- The count of `xreadv` only grows. -/
theorem xreadv_loop_total (file : File) (total : Int) (iov : List (List UInt8)) :
    ∃ after segs, ∃ more : Nat, xreadv_loop File.read file total iov = .ok (after, total + more, segs) := by
  induction iov generalizing file total with
  | nil => exact ⟨file, [], 0, by simp [xreadv_loop]⟩
  | cons seg rest ih =>
    by_cases hseg : seg = []
    · exact ⟨file, seg :: rest, 0, by simpa using xreadv_loop_stops (Or.inl hseg) total rest⟩
    · by_cases hleft : seg.length ≤ file.left.length
      · obtain ⟨after, segs, more, hrest⟩ := ih (file.read seg.length).1 (total + seg.length)
        refine ⟨after, file.left.take seg.length :: segs, seg.length + more, ?_⟩
        rw [xreadv_loop_fills hseg hleft, hrest, exec_bind_ok, Int.natCast_add, Int.add_assoc]
      · obtain ⟨after, seg', hrun⟩ := xreadv_loop_short (Nat.lt_of_not_le hleft) total
        exact ⟨after, seg' :: rest, file.left.length, hrun rest⟩

/-- Before the end of the file, a segment that is not empty gets a byte. -/
theorem xreadv_loop_moves (hseg : seg ≠ []) (hleft : file.left ≠ []) (total : Int)
    (rest : List (List UInt8)) :
    ∃ after segs, ∃ more : Nat, 0 < more ∧
      xreadv_loop File.read file total (seg :: rest) = .ok (after, total + more, segs) := by
  have hpos : 0 < seg.length := List.length_pos_iff.mpr hseg
  by_cases hfull : seg.length ≤ file.left.length
  · obtain ⟨after, segs, more, hrest⟩ :=
      xreadv_loop_total (file.read seg.length).1 (total + seg.length) rest
    refine ⟨after, file.left.take seg.length :: segs, seg.length + more, by omega, ?_⟩
    rw [xreadv_loop_fills hseg hfull, hrest, exec_bind_ok, Int.natCast_add, Int.add_assoc]
  · obtain ⟨after, seg', hrun⟩ := xreadv_loop_short (Nat.lt_of_not_le hfull) total
    exact ⟨after, seg' :: rest, file.left.length, List.length_pos_iff.mpr hleft, hrun rest⟩

/-- Segments among which `xreadv` ends: whatever follows them does not matter. -/
theorem xreadv_loop_ends (total : Int) (front : List (List UInt8))
    (h : [] ∈ front ∨ file.left.length < front.flatten.length) :
    ∃ after total' segs, segs.length = front.length ∧
      ∀ back, xreadv_loop File.read file total (front ++ back) = .ok (after, total', segs ++ back) := by
  induction front generalizing file total with
  | nil => simp at h
  | cons seg rest ih =>
    by_cases hseg : seg = []
    · exact ⟨file, total, seg :: rest, rfl, fun back => xreadv_loop_stops (Or.inl hseg) total _⟩
    · by_cases hleft : seg.length ≤ file.left.length
      · have hrest : [] ∈ rest ∨ (file.read seg.length).1.left.length < rest.flatten.length := by
          rw [File.read_left, List.length_drop]
          obtain hmem | hlt := h
          · exact Or.inl ((List.mem_cons.mp hmem).resolve_left (Ne.symm hseg))
          · rw [List.flatten_cons, List.length_append] at hlt
            exact Or.inr (by omega)
        obtain ⟨after, total', segs, hlength, hrun⟩ := ih (total + seg.length) hrest
        refine ⟨after, total', file.left.take seg.length :: segs, by simp [hlength], fun back => ?_⟩
        rw [List.cons_append, xreadv_loop_fills hseg hleft, hrun back, exec_bind_ok]
        rfl
      · obtain ⟨after, seg', hrun⟩ := xreadv_loop_short (Nat.lt_of_not_le hleft) total
        exact ⟨after, _, seg' :: rest, rfl, fun back => hrun (rest ++ back)⟩

/-- Segments that are all filled: `xreadv` goes on with what follows them. -/
theorem xreadv_loop_passes (file : File) (total : Int) (front : List (List UInt8)) (hne : [] ∉ front)
    (hleft : front.flatten.length ≤ file.left.length) :
    ∃ after segs, segs.length = front.length ∧ after.left = file.left.drop front.flatten.length ∧
      ∀ back, xreadv_loop File.read file total (front ++ back) =
        (xreadv_loop File.read after (total + front.flatten.length) back >>= fun r =>
          .ok (r.1, r.2.1, segs ++ r.2.2)) := by
  induction front generalizing file total with
  | nil =>
    refine ⟨file, [], rfl, rfl, fun back => ?_⟩
    obtain ⟨after, segs, more, hrun⟩ := xreadv_loop_total file total back
    simp [hrun]
  | cons seg rest ih =>
    simp only [List.mem_cons, not_or] at hne
    rw [List.flatten_cons, List.length_append] at hleft
    have hseg : seg ≠ [] := Ne.symm hne.1
    obtain ⟨after, segs, hlength, hafter, hrun⟩ := ih (file.read seg.length).1
      (total + seg.length) hne.2 (by rw [File.read_left, List.length_drop]; omega)
    refine ⟨after, file.left.take seg.length :: segs, by simp [hlength], ?_, fun back => ?_⟩
    · rw [hafter, File.read_left, List.drop_drop, List.flatten_cons, List.length_append]
    · rw [List.cons_append, xreadv_loop_fills hseg (by omega), hrun back, List.flatten_cons,
        List.length_append, Int.natCast_add, ← Int.add_assoc]
      obtain ⟨after', segs', more, hback⟩ :=
        xreadv_loop_total after (total + seg.length + rest.flatten.length) back
      rw [hback]
      rfl

/-- An empty segment changes nothing if and only if `xreadv` has ended before it, or would end
    right after it. -/
theorem xreadv_empty_segment_iff (file : File) (front back : List (List UInt8)) :
    (∃ after total segs₁ segs₂, segs₁.length = front.length ∧
        xreadv File.read file (front ++ back) = .ok (after, total, segs₁ ++ segs₂) ∧
        xreadv File.read file (front ++ [] :: back) = .ok (after, total, segs₁ ++ [] :: segs₂)) ↔
      [] ∈ front ∨ file.left.length ≤ front.flatten.length ∨ ∀ seg ∈ back.head?, seg = [] := by
  unfold xreadv
  by_cases hends : [] ∈ front ∨ file.left.length < front.flatten.length
  · obtain ⟨after, total, segs, hlength, hrun⟩ := xreadv_loop_ends 0 front hends
    refine iff_of_true ⟨after, total, segs, back, hlength, hrun back, hrun ([] :: back)⟩ ?_
    exact hends.imp_right fun hlt => Or.inl hlt.le
  · obtain ⟨hne, hleft⟩ := not_or.mp hends
    obtain ⟨after, segs, hlength, hafter, hrun⟩ := xreadv_loop_passes file 0 front hne (not_lt.mp hleft)
    rw [hrun back, hrun ([] :: back), xreadv_loop_stops (Or.inl rfl), exec_bind_ok]
    have hend : file.left.length ≤ front.flatten.length ↔ after.left = [] := by
      rw [hafter, List.drop_eq_nil_iff]
    rw [hend, or_iff_right hne]
    cases back with
    | nil => exact iff_of_true ⟨after, _, segs, [], hlength, rfl, rfl⟩ (Or.inr (by simp))
    | cons seg rest =>
      by_cases hidle : seg = [] ∨ after.left = []
      · rw [xreadv_loop_stops hidle, exec_bind_ok]
        refine iff_of_true ⟨after, _, segs, seg :: rest, hlength, rfl, rfl⟩ ?_
        exact hidle.symm.imp_right fun hseg => by simpa using hseg
      · obtain ⟨hseg, hmore⟩ := not_or.mp hidle
        obtain ⟨after', segs', more, hpos, hback⟩ :=
          xreadv_loop_moves hseg hmore (0 + (front.flatten.length : Int)) rest
        rw [hback, exec_bind_ok]
        refine iff_of_false ?_ (by simpa using ⟨hmore, hseg⟩)
        rintro ⟨_, total, _, _, _, hfirst, hsecond⟩
        simp only [Except.ok.injEq, Prod.mk.injEq] at hfirst hsecond
        omega

end Empty

/-- An empty segment before one of two bytes hides the file from it. -/
theorem xreadv_empty_segment_hides :
    ¬∃ after total segs₁ segs₂, segs₁.length = ([] : List (List UInt8)).length ∧
      xreadv File.read { content := [1, 2], offset := 0 } ([] ++ [[0, 0]]) =
        .ok (after, total, segs₁ ++ segs₂) ∧
      xreadv File.read { content := [1, 2], offset := 0 } ([] ++ [] :: [[0, 0]]) =
        .ok (after, total, segs₁ ++ [] :: segs₂) := by
  rintro ⟨after, total, segs₁, segs₂, _, hfirst, hsecond⟩
  have hwithout : xreadv File.read { content := [1, 2], offset := 0 } ([] ++ [[0, 0]]) =
      .ok ({ content := [1, 2], offset := 2 }, (2 : Int), [[1, 2]]) := rfl
  have hwith : xreadv File.read { content := [1, 2], offset := 0 } ([] ++ [] :: [[0, 0]]) =
      .ok ({ content := [1, 2], offset := 0 }, (0 : Int), [[], [0, 0]]) := rfl
  rw [hwithout] at hfirst
  rw [hwith] at hsecond
  simp only [Except.ok.injEq, Prod.mk.injEq] at hfirst hsecond
  omega

end tlpi.rwv
