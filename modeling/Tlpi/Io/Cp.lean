import Tlpi.Io.Input

namespace tlpi.cp

/-- What the copying loop works on. -/
structure State where
  src : Input
  buff : List UInt8
  dst : File

/-- One iteration of the copying loop. The result is the destination and the exit status. -/
def copy_body (fuel : Nat) (state : State) : Exec (Flow State (File × Int)) := do
  let r := state.src.read state.buff
  -- a read error is not the end of file: the loop goes on with -1 bytes
  if r.nr_bytes ≠ 0 then
    let (dst, written) ← write_buff File.write fuel state.dst r.buff r.nr_bytes
    if written < 0 then return .done (dst, EXIT_FAILURE)
    else return .cont { src := r.input, buff := r.buff, dst }
  else return .done (state.dst, 0)

/-- `main`, given what opening the source gives (nothing if that fails), what is at the
    destination's path before, and the uninitialised buffer. The result is what is at that
    path then and the exit status. -/
def main (fuel argc : Nat) (src : Option Input) (dst : Option (List UInt8)) (buff : List UInt8) :
    Exec (Option (List UInt8) × Int) :=
  if argc < 3 then .ok (dst, EXIT_FAILURE)
  else
    match src with
    | none => .ok (dst, EXIT_FAILURE)
    | some src =>
      match open_path { O_CREAT := true, O_EXCL := false, O_TRUNC := false, O_APPEND := false } dst with
      | .error _ => .ok (dst, EXIT_FAILURE)
      | .ok file => do
        let (file, status) ← loop (copy_body fuel) fuel { src, buff, dst := file }
        return (some file.content, status)

section Copy

variable {src : Input} {buff old : List UInt8} {fuel : Nat}

/-- The state after the chunks in front have been copied over the old content. -/
def copied (buff old : List UInt8) (done rest : List (List UInt8)) : State where
  src := ⟨rest, false⟩
  buff := done.foldl (fun buff chunk => chunk ++ buff.drop chunk.length) buff
  dst := ⟨done.flatten ++ old.drop done.flatten.length, done.flatten.length⟩

theorem copy_body_chunk (fuel : Nat) (done : List (List UInt8)) (chunk : List UInt8)
    (rest : List (List UInt8)) (hchunk : 1 ≤ chunk.length ∧ chunk.length ≤ IO_BUFF_SIZE) :
    copy_body (fuel + 2) (copied buff old done (chunk :: rest)) =
      .ok (.cont (copied buff old (done ++ [chunk]) rest)) := by
  have hbound : chunk.length < 2 ^ 63 := by
    have hle := hchunk.2
    rw [IO_BUFF_SIZE] at hle
    omega
  have hwrite := write_buff_chunk fuel
    ((done.foldl (fun buff chunk => chunk ++ buff.drop chunk.length) buff).drop chunk.length) hbound hchunk.1
    (File.write_over done.flatten (old.drop done.flatten.length) chunk)
  have hne : (chunk.length : Int) ≠ 0 := by
    have hpos := hchunk.1
    omega
  simp only [copy_body, copied, Input.read, if_pos hne, hwrite, exec_bind_ok]
  rw [if_neg (by omega)]
  simp [List.drop_drop]

theorem copy_loop (old buff : List UInt8) (hfits : src.Fits) (hend : src.fails = false)
    (hfuel : src.chunks.length + 2 ≤ fuel) :
    ∃ offset, loop (copy_body fuel) fuel { src, buff, dst := ⟨old, 0⟩ } =
      .ok (⟨src.content ++ old.drop src.content.length, offset⟩, 0) := by
  obtain ⟨fuel, rfl⟩ : ∃ n, fuel = n + 2 := ⟨fuel - 2, by omega⟩
  obtain ⟨chunks, fails⟩ := src
  obtain rfl : fails = false := hend
  have hbody (done : List (List UInt8)) (chunk : List UInt8) (rest : List (List UInt8))
      (hsplit : chunks = done ++ chunk :: rest) :
      copy_body (fuel + 2) (copied buff old done (chunk :: rest ++ [])) =
        .ok (.cont (copied buff old (done ++ [chunk]) (rest ++ []))) := by
    simp only [List.append_nil]
    exact copy_body_chunk fuel done chunk rest (hfits chunk (by simp [hsplit]))
  have hend : copy_body (fuel + 2) (copied buff old chunks []) =
      .ok (.done (⟨chunks.flatten ++ old.drop chunks.flatten.length, chunks.flatten.length⟩, 0)) := by
    simp [copy_body, copied, Input.read]
  have hloop := loop_list (copied buff old) chunks [] hbody hend (show chunks.length < fuel + 2 by simp at hfuel; omega)
  refine ⟨chunks.flatten.length, ?_⟩
  simpa [copied, Input.content] using hloop

end Copy

/-- What `main` leaves at the destination: the source's bytes, and behind them whatever the
    old content has beyond their number. -/
theorem main_spec {argc fuel : Nat} {src : Input} (dst : Option (List UInt8)) (buff : List UInt8)
    (hargc : 3 ≤ argc) (hfits : src.Fits) (hend : src.fails = false)
    (hfuel : src.chunks.length + 2 ≤ fuel) :
    main fuel argc (some src) dst buff =
      .ok (some (src.content ++ (dst.getD []).drop src.content.length), 0) := by
  have hopen : open_path { O_CREAT := true, O_EXCL := false, O_TRUNC := false, O_APPEND := false } dst =
      .ok ⟨dst.getD [], 0⟩ := by
    cases dst <;> rfl
  obtain ⟨offset, hloop⟩ := copy_loop (dst.getD []) buff hfits hend hfuel
  simp only [main, if_neg (not_lt.mpr hargc), hopen, hloop, exec_bind_ok, exec_pure]

/-- `cp` makes the destination equal to the source if and only if the destination was not
    there before or was not longer than the source: its old content is not cut off. -/
theorem main_copies_iff {argc fuel : Nat} {src : Input} (dst : Option (List UInt8)) (buff : List UInt8)
    (hargc : 3 ≤ argc) (hfits : src.Fits) (hend : src.fails = false)
    (hfuel : src.chunks.length + 2 ≤ fuel) :
    main fuel argc (some src) dst buff = .ok (some src.content, 0) ↔
      ∀ old ∈ dst, old.length ≤ src.content.length := by
  rw [main_spec dst buff hargc hfits hend hfuel]
  simp only [Except.ok.injEq, Prod.mk.injEq, Option.some.injEq, and_true, List.append_right_eq_self,
    List.drop_eq_nil_iff]
  cases dst with
  | none => simp
  | some old => simp

/-- Three bytes, read in two chunks, over a file of one byte. -/
theorem main_copies_longer :
    main 4 3 (some ⟨[[1, 2], [3]], false⟩) (some [9]) (List.replicate IO_BUFF_SIZE 0) =
      .ok (some [1, 2, 3], 0) := by
  apply (main_copies_iff (some [9]) (List.replicate IO_BUFF_SIZE 0) le_rfl _ _ _).mpr
  · intro old hold
    obtain rfl : [9] = old := Option.some.inj hold
    decide
  · decide
  · rfl
  · exact le_rfl

/-- One byte over a file of two: the second of them stays. -/
theorem main_keeps_tail :
    Input.Fits ⟨[[1]], false⟩ ∧
      main 3 3 (some ⟨[[1]], false⟩) (some [8, 9]) (List.replicate IO_BUFF_SIZE 0) =
        .ok (some [1, 9], 0) ∧
      main 3 3 (some ⟨[[1]], false⟩) (some [8, 9]) (List.replicate IO_BUFF_SIZE 0) ≠
        .ok (some (Input.content ⟨[[1]], false⟩), 0) := by
  have hfits : Input.Fits ⟨[[1]], false⟩ := by decide
  have hrun : main 3 3 (some ⟨[[1]], false⟩) (some [8, 9]) (List.replicate IO_BUFF_SIZE 0) =
      .ok (some [1, 9], 0) := main_spec _ _ le_rfl hfits rfl le_rfl
  refine ⟨hfits, hrun, ?_⟩
  rw [hrun]
  simp [Input.content]

end tlpi.cp
