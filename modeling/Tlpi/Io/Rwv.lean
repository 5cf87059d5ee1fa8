import Mathlib.Data.List.Basic
import Tlpi.Io.File
import Tlpi.Io.Writep

namespace tlpi.rwv

open tlpi.mylib

/-- The loop of `xwritev` over the segments, from `total_written` on. Each segment is
    the `iov_len` bytes at its `iov_base`. -/
def xwritev_loop {D : Type} (write : D → List UInt8 → D × Int) (fuel : Nat) :
    D → Int → List (List UInt8) → Exec (D × Int)
  | file, total_written, [] => .ok (file, total_written)
  | file, total_written, seg :: rest => do
    let r ← writep write fuel file seg seg.length
    if r.2 < 0 then .ok (r.1, -1)
    else xwritev_loop write fuel r.1 (total_written + r.2) rest

def xwritev {D : Type} (write : D → List UInt8 → D × Int) (fuel : Nat) (file : D)
    (iov : List (List UInt8)) : Exec (D × Int) :=
  xwritev_loop write fuel file 0 iov

/-- The variables of `xreadv` while it fills one segment. -/
structure SegmentRead (D : Type) where
  file : D
  seg : List UInt8
  count : Int
  total_read : Int
  num_read : Int

/-- The bytes that `read` stores at an offset into the segment. -/
def store_bytes (seg : List UInt8) (start : Nat) (bytes : List UInt8) : Exec (List UInt8) :=
  if start + bytes.length ≤ seg.length then
    .ok (seg.take start ++ bytes ++ seg.drop (start + bytes.length))
  else .error .outOfBounds

/-- One evaluation of the inner loop's condition, and its body when bytes were read. A
    `read` answers with the bytes it stores, or with `none` for -1. -/
def xreadv_body {D : Type} (read : D → Nat → D × Option (List UInt8)) (state : SegmentRead D) :
    Exec (Flow (SegmentRead D) (SegmentRead D)) :=
  match read state.file state.count.toNat with
  | (file, none) => .ok (.done { state with file, num_read := -1 })
  | (file, some bytes) =>
    if bytes.length = 0 then .ok (.done { state with file, num_read := 0 })
    else do
      -- base + num_read skips the bytes of the previous read only
      let seg ← store_bytes state.seg state.num_read.toNat bytes
      let count := state.count - bytes.length
      let next : SegmentRead D :=
        { file, seg, count, total_read := state.total_read + bytes.length, num_read := bytes.length }
      if count ≤ 0 then .ok (.done next) else .ok (.cont next)

/-- The outer loop of `xreadv`, from `total_read` on. A `read` never returns more than
    it was asked for, so that the inner loop ends within `iov_len` iterations. -/
def xreadv_loop {D : Type} (read : D → Nat → D × Option (List UInt8)) :
    D → Int → List (List UInt8) → Exec (D × Int × List (List UInt8))
  | file, total_read, [] => .ok (file, total_read, [])
  | file, total_read, seg :: rest => do
    let state ← loop (xreadv_body read) (seg.length + 1)
      { file, seg, count := seg.length, total_read, num_read := 0 }
    if state.num_read < 0 then .ok (state.file, -1, state.seg :: rest)
    else if state.num_read = 0 then .ok (state.file, state.total_read, state.seg :: rest)
    else do
      let r ← xreadv_loop read state.file state.total_read rest
      .ok (r.1, r.2.1, state.seg :: r.2.2)

def xreadv {D : Type} (read : D → Nat → D × Option (List UInt8)) (file : D) (iov : List (List UInt8)) :
    Exec (D × Int × List (List UInt8)) :=
  xreadv_loop read file 0 iov

/-- Gathering into a file at its end appends the segments in order. -/
theorem xwritev_loop_at_end (fuel : Nat) (file : File) (hend : file.offset = file.content.length)
    (total : Nat) (iov : List (List UInt8)) (hbound : iov.flatten.length < 2 ^ 63) :
    xwritev_loop File.write (fuel + 2) file total iov =
      .ok ({ content := file.content ++ iov.flatten, offset := file.content.length + iov.flatten.length },
        ((total + iov.flatten.length : Nat) : Int)) := by
  induction iov generalizing file total with
  | nil =>
    cases file
    simp_all [xwritev_loop]
  | cons seg rest ih =>
    simp only [List.flatten_cons, List.length_append] at hbound ⊢
    have hwrite := writep_full fuel (show seg.length < 2 ^ 63 by omega)
      (by rintro rfl; cases file; simp_all) (fun _ => File.write_at_end hend seg)
    rw [xwritev_loop, hwrite, exec_bind_ok, if_neg (by simp), ← Int.natCast_add,
      ih _ (by simp) _ (by omega)]
    simp [Nat.add_assoc]

/-- Filling one segment from a file with enough bytes left: one `read` does it. -/
theorem xreadv_segment_full {file : File} {seg : List UInt8} (hseg : seg ≠ []) (total : Int)
    (hleft : seg.length ≤ file.left.length) :
    loop (xreadv_body File.read) (seg.length + 1)
        { file, seg, count := seg.length, total_read := total, num_read := 0 } =
      .ok ⟨(file.read seg.length).1, file.left.take seg.length, 0, total + seg.length, seg.length⟩ := by
  have hbytes : (file.left.take seg.length).length = seg.length := by simp [hleft]
  have hpos : 0 < seg.length := List.length_pos_iff.mpr hseg
  apply loop_done
  have hread : file.read seg.length = ((file.read seg.length).1, some (file.left.take seg.length)) := rfl
  simp only [xreadv_body, Int.toNat_natCast]
  rw [hread]
  simp [store_bytes, hbytes, hpos.ne']

/-- At the end of a file that is too short, the segment gets what is left and the next
    `read` reports the end of input. -/
theorem xreadv_segment_short {file : File} (seg : List UInt8) (total : Int)
    (hleft : file.left.length < seg.length) :
    ∃ state, loop (xreadv_body File.read) (seg.length + 1)
        { file, seg, count := seg.length, total_read := total, num_read := 0 } = .ok state ∧
      state.num_read = 0 ∧ state.total_read = total + file.left.length ∧
      state.seg = file.left ++ seg.drop file.left.length := by
  have hread : file.read seg.length = ((file.read seg.length).1, some file.left) := by
    simp only [File.read, Prod.mk.injEq, true_and, Option.some.injEq]
    exact List.take_of_length_le hleft.le
  by_cases hempty : file.left = []
  · refine ⟨{ file := (file.read seg.length).1, seg, count := seg.length, total_read := total, num_read := 0 },
      loop_done ?_, rfl, by simp [hempty], by simp [hempty]⟩
    simp only [xreadv_body, Int.toNat_natCast]
    rw [hread]
    simp [hempty]
  · have hpos : 0 < file.left.length := List.length_pos_iff.mpr hempty
    have hdrained : (file.read seg.length).1.left = [] := by
      rw [File.read_left, List.drop_eq_nil_of_le hleft.le]
    have hfirst : xreadv_body File.read
        { file, seg, count := seg.length, total_read := total, num_read := 0 } =
        .ok (.cont ⟨(file.read seg.length).1, file.left ++ seg.drop file.left.length,
          seg.length - file.left.length, total + file.left.length, file.left.length⟩) := by
      simp only [xreadv_body, Int.toNat_natCast]
      rw [hread]
      simp [store_bytes, hpos.ne', hleft.le, hleft]
    obtain ⟨fuel, hfuel⟩ : ∃ fuel, seg.length = fuel + 1 := ⟨seg.length - 1, by omega⟩
    refine ⟨⟨((file.read seg.length).1.read ((seg.length : Int) - file.left.length).toNat).1,
      file.left ++ seg.drop file.left.length, seg.length - file.left.length,
      total + file.left.length, 0⟩, ?_, rfl, rfl, rfl⟩
    rw [loop_cont hfirst, hfuel]
    apply loop_done
    have hnone (requested : Nat) : (file.read seg.length).1.read requested =
        (((file.read seg.length).1.read requested).1, some []) := by
      have hdrop : List.drop (file.read seg.length).1.offset (file.read seg.length).1.content = [] :=
        hdrained
      simp only [File.read, Prod.mk.injEq, true_and, Option.some.injEq] at hdrop ⊢
      rw [hdrop, List.take_nil]
    simp only [xreadv_body]
    rw [← hfuel, hnone]
    rfl

/-- Scattering a file over non-empty segments fills them in order with what is left of
    the file, leaves the bytes behind that untouched, and counts what was stored. -/
theorem xreadv_loop_file (file : File) (total : Nat) (iov : List (List UInt8))
    (hne : ∀ seg ∈ iov, seg ≠ []) :
    ∃ after segs, xreadv_loop File.read file total iov =
        .ok (after, ((total + min file.left.length iov.flatten.length : Nat) : Int), segs) ∧
      segs.map List.length = iov.map List.length ∧
      segs.flatten = file.left.take iov.flatten.length ++ iov.flatten.drop file.left.length := by
  induction iov generalizing file total with
  | nil => exact ⟨file, [], by simp [xreadv_loop], rfl, by simp⟩
  | cons seg rest ih =>
    have hseg : seg ≠ [] := hne seg (by simp)
    have hpos : 0 < seg.length := List.length_pos_iff.mpr hseg
    by_cases hleft : seg.length ≤ file.left.length
    · have hloop := xreadv_segment_full hseg total hleft
      obtain ⟨after, segs, hrest, hlengths, hflat⟩ :=
        ih (file.read seg.length).1 (total + seg.length) (fun s hs => hne s (by simp [hs]))
      rw [File.read_left] at hrest hflat
      refine ⟨after, file.left.take seg.length :: segs, ?_, ?_, ?_⟩
      · rw [xreadv_loop, hloop, exec_bind_ok]
        simp only [Int.natCast_add] at hrest
        rw [if_neg (by simp), if_neg (by simp [hseg]), hrest, exec_bind_ok]
        simp only [List.flatten_cons, List.length_append, List.length_drop]
        congr 3
        omega
      · simp [hlengths, hleft]
      · simp only [List.flatten_cons, List.length_append, hflat, List.length_drop]
        rw [List.take_add, List.append_assoc, List.drop_append, List.drop_eq_nil_of_le hleft,
          List.nil_append]
    · obtain ⟨state, hloop, hzero, htotal, hstored⟩ :=
        xreadv_segment_short seg total (Nat.lt_of_not_le hleft)
      refine ⟨state.file, state.seg :: rest, ?_, ?_, ?_⟩
      · rw [xreadv_loop, hloop, exec_bind_ok, if_neg (by omega), if_pos hzero, htotal]
        simp only [List.flatten_cons, List.length_append]
        congr 3
        omega
      · simp only [List.map_cons, hstored, List.length_append, List.length_drop]
        congr 1
        omega
      · simp only [List.flatten_cons, List.length_append, hstored]
        rw [List.take_of_length_le (show file.left.length ≤ _ by omega), List.append_assoc,
          List.drop_append_of_le_length (by omega)]

/-- Gathering any segments into an empty file and scattering it over any non-empty
    segments: the totals are returned, the read segments hold the written bytes as far
    as both reach, and the rest of them is as it was. -/
theorem xwritev_xreadv_roundtrip (fuel : Nat) (out into : List (List UInt8))
    (hne : ∀ seg ∈ into, seg ≠ []) (hout : out.flatten.length < 2 ^ 63) :
    ∃ written, xwritev File.write (fuel + 2) { content := [], offset := 0 } out =
        .ok (written, (out.flatten.length : Int)) ∧
      ∃ after segs, xreadv File.read (written.seek 0) into =
          .ok (after, ((min out.flatten.length into.flatten.length : Nat) : Int), segs) ∧
        segs.map List.length = into.map List.length ∧
        segs.flatten = out.flatten.take (min out.flatten.length into.flatten.length) ++
          into.flatten.drop (min out.flatten.length into.flatten.length) := by
  have hwrite := xwritev_loop_at_end fuel { content := [], offset := 0 } rfl 0 out hout
  simp only [List.nil_append, List.length_nil, Nat.zero_add] at hwrite
  refine ⟨_, hwrite, ?_⟩
  obtain ⟨after, segs, hread, hlengths, hflat⟩ :=
    xreadv_loop_file ({ content := out.flatten, offset := out.flatten.length : File }.seek 0) 0 into hne
  have hleft : ({ content := out.flatten, offset := out.flatten.length : File }.seek 0).left =
    out.flatten := rfl
  rw [hleft] at hread hflat
  rw [Nat.zero_add] at hread
  refine ⟨after, segs, hread, hlengths, hflat.trans ?_⟩
  obtain h | h := Nat.le_total out.flatten.length into.flatten.length
  · rw [Nat.min_eq_left h, List.take_of_length_le h, List.take_length]
  · rw [Nat.min_eq_right h, List.drop_eq_nil_of_le h, List.drop_length]

/-- Two segments of two and no bytes, read back into one of three. -/
theorem xwritev_xreadv_roundtrip_short :
    ∃ written, xwritev File.write 2 { content := [], offset := 0 } [[1, 2], []] =
        .ok (written, (2 : Int)) ∧
      ∃ after segs, xreadv File.read (written.seek 0) [[9, 9, 9]] = .ok (after, (2 : Int), segs) ∧
        segs.map List.length = [3] ∧ segs.flatten = [1, 2, 9] :=
  xwritev_xreadv_roundtrip 0 [[1, 2], []] [[9, 9, 9]] (by simp) (by decide)

end tlpi.rwv
