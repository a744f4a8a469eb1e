/-
What a scanner reads of a UTF-8 buffer over whole runs: it fills the buffer,
consumes characters and compacts it, in any order.
-/
import Gobo.Utf8FileBufferFill
import Gobo.Runs

namespace Gobo

open List

inductive BufferCommand where
  | fill
  /-- Read the next `n` characters, or those there are. -/
  | consume (n : Nat)
  | compactLeft
  deriving DecidableEq

/-- The buffer, and the characters read before. -/
structure BufferReader where
  buffer : Utf8FileBuffer
  consumed : List UInt8

namespace BufferReader

def exec (r : BufferReader) : BufferCommand → Option BufferReader
  | .fill => r.buffer.fill.map fun buffer => { r with buffer }
  | .consume n =>
      some ⟨{ r.buffer with index := r.buffer.index + (r.buffer.available.take n).length },
        r.consumed ++ r.buffer.available.take n⟩
  | .compactLeft => r.buffer.compactLeft.map fun buffer => { r with buffer }

/-- All the characters made available so far. -/
def delivered (r : BufferReader) : List UInt8 := r.consumed ++ r.buffer.available

end BufferReader

/-- The characters of a file.  In interactive mode, which reads one byte at a
time, no byte order mark is looked for. -/
def characters (interactive : Bool) (defaultEncoding : Encoding) (bytes : List UInt8) :
    List UInt8 :=
  if interactive = false ∧ utf8Bom <+: bytes then bytes.drop utf8Bom.length
  else if defaultEncoding = .utf8 then bytes
  else utf8OfIso88591 bytes

/-- However the file splits its reads and whatever the scanner does in between,
the characters made available are `expected`, from the first on, and all of them
once there was a fill more than there are bytes. -/
def Delivers (interactive : Bool) (defaultEncoding : Encoding) (bytes expected : List UInt8) :
    Prop :=
  ∀ (file : InputStream) (size : Nat) (commands : List BufferCommand),
    file.rest = bytes → file.Ends →
    ∃ r, runAll BufferReader.exec
        ⟨.makeWithSize file interactive defaultEncoding size, []⟩ commands = some r ∧
      r.buffer.content.count = r.buffer.capacity + 2 ∧
      r.delivered <+: expected ∧
      (r.buffer.filled = false → r.delivered = expected) ∧
      (bytes.length < commands.count .fill → r.buffer.filled = false)

namespace BufferReader

/-- What every command keeps, where `fills` of them were fills. -/
structure Reading (size : Nat) (total : List UInt8) (fills : Nat) (r : BufferReader) :
    Prop where
  valid : r.buffer.Valid
  total : r.delivered ++ r.buffer.pending = total
  left : r.buffer.filled = true → r.buffer.file.rest.length + fills ≤ size

section

variable {size fills : Nat} {total : List UInt8} {r : BufferReader}

section

variable (hr : Reading size total fills r)

include hr

theorem Reading.exists_fill :
    ∃ r', r.exec .fill = some r' ∧ Reading size total (fills + 1) r' := by
  obtain ⟨b, out, hfill, hb⟩ := hr.valid.exists_fill
  refine ⟨{ r with buffer := b }, by rw [exec, hfill, Option.map_some], hb.valid, ?_, ?_⟩
  · rw [← hr.total, delivered, delivered, hb.available, hb.pending]
    simp only [append_assoc]
  · intro hfilled
    have hshorter := hb.shorter hfilled
    have hbefore : r.buffer.filled = true := by
      -- A buffer that could not be filled is not filled again.
      by_contra hnot
      rw [Utf8FileBuffer.fill, if_neg (fun h => hnot h.1)] at hfill
      rw [← Option.some.inj hfill] at hfilled
      cases hfilled
    have hleft := hr.left hbefore
    show b.file.rest.length + (fills + 1) ≤ size
    omega

theorem Reading.exists_consume (n : Nat) :
    ∃ r', r.exec (.consume n) = some r' ∧ Reading size total fills r' := by
  have hvalid := hr.valid
  have hindex := hvalid.index_le
  have hlength : (r.buffer.available.take n).length = min n (r.buffer.count + 1 - r.buffer.index) :=
    by rw [length_take, Utf8FileBuffer.available, CharacterBuffer.length_slice]
  have hdrop : r.buffer.content.slice
        (r.buffer.index + (r.buffer.available.take n).length)
        (r.buffer.count + 1 - (r.buffer.index + (r.buffer.available.take n).length)) =
      r.buffer.available.drop n := by
    have hsplit : r.buffer.available =
        r.buffer.content.slice r.buffer.index (r.buffer.available.take n).length ++
          r.buffer.content.slice (r.buffer.index + (r.buffer.available.take n).length)
            (r.buffer.count + 1 - (r.buffer.index + (r.buffer.available.take n).length)) := by
      rw [← CharacterBuffer.slice_add, ← Nat.sub_sub, Nat.add_sub_cancel' (by omega)]
      rfl
    refine (append_inj ((take_append_drop n _).trans hsplit) ?_).2.symm
    rw [CharacterBuffer.length_slice]
  have havailable : ({ r.buffer with
      index := r.buffer.index + (r.buffer.available.take n).length } : Utf8FileBuffer).available =
      r.buffer.available.drop n := hdrop
  refine ⟨_, rfl, ?_, ?_, hr.left⟩
  · exact { hvalid with
      index_pos := Nat.le_trans hvalid.index_pos (Nat.le_add_right _ _)
      index_le := by
        dsimp only
        omega }
  · rw [← hr.total, delivered, delivered]
    rw [havailable, append_assoc r.consumed, take_append_drop]
    rfl

theorem Reading.exists_compactLeft :
    ∃ r', r.exec .compactLeft = some r' ∧ Reading size total fills r' := by
  have hvalid := hr.valid
  obtain ⟨b, hcompact, hb⟩ := hvalid.exists_compactLeft
  have hindex := hb.index
  have hspace := hb.space
  refine ⟨{ r with buffer := b }, by rw [exec, hcompact, Option.map_some], ?_, ?_, ?_⟩
  · exact {
      index_pos := Nat.le_of_eq hindex.symm
      index_le := by
        show b.index ≤ b.count + 1
        omega
      count_le := Nat.le_trans (Nat.le_add_right _ _) hspace
      room := hb.room
      ends := by
        rw [hb.file]
        exact hvalid.ends
      endOfFile := by
        rw [hb.file, hb.endOfFile]
        exact hvalid.endOfFile
      exhausted := by
        rw [hb.file, hb.filled]
        exact hvalid.exhausted
      fresh := by
        rw [hb.encoding]
        exact fun h => hb.fresh (hvalid.fresh h) }
  · rw [← hr.total, delivered, delivered, Utf8FileBuffer.pending, Utf8FileBuffer.pending]
    rw [hb.available, hb.encoding, hb.file, hb.interactive, hb.defaultEncoding]
  · dsimp only
    rw [hb.filled, hb.file]
    exact hr.left

theorem Reading.exists_run (commands : List BufferCommand) :
    ∃ r', runAll exec r commands = some r' ∧
      Reading size total (fills + commands.count .fill) r' := by
  induction commands generalizing fills r with
  | nil => exact ⟨r, rfl, hr⟩
  | cons c commands ih =>
      obtain ⟨r', hexec, hr'⟩ : ∃ r', r.exec c = some r' ∧
          Reading size total (fills + [c].count .fill) r' := by
        cases c with
        | fill => exact hr.exists_fill
        | consume n => exact hr.exists_consume n
        | compactLeft => exact hr.exists_compactLeft
      obtain ⟨r'', hrun, hr''⟩ := ih hr'
      refine ⟨r'', bind_of_some hexec hrun, ?_⟩
      rwa [← singleton_append, count_append, ← Nat.add_assoc]

end

end

end BufferReader

section

variable {interactive : Bool} {defaultEncoding : Encoding} {bytes : List UInt8}

/-- What is delivered, whether or not the file meets a byte order mark. -/
theorem delivers_decoded : Delivers interactive defaultEncoding bytes
      (Utf8FileBuffer.decoded interactive defaultEncoding bytes) := by
  intro file size commands hfile hends
  have hstart : BufferReader.Reading bytes.length
      (Utf8FileBuffer.decoded interactive defaultEncoding bytes) 0
      ⟨.makeWithSize file interactive defaultEncoding size, []⟩ := by
    refine ⟨Utf8FileBuffer.valid_makeWithSize hends _ _ _, ?_, ?_⟩
    · rw [← hfile]
      rfl
    · intro _
      rw [← hfile]
      exact Nat.le_refl _
  obtain ⟨r, hrun, hr⟩ := hstart.exists_run commands
  refine ⟨r, hrun, hr.valid.room, ⟨_, hr.total⟩, ?_, ?_⟩
  · intro hdone
    have hpending : r.buffer.pending = [] :=
      Utf8FileBuffer.pending_eq_nil (hr.valid.exhausted hdone)
    have htotal := hr.total
    rwa [hpending, append_nil] at htotal
  · intro hfills
    by_contra hfilled
    have hleft := hr.left (by simpa using hfilled)
    omega

/-- The bytes looked at for a byte order mark are lost only where it is missing
and UTF-8 is the default. -/
theorem decoded_eq_characters_iff :
    Utf8FileBuffer.decoded interactive defaultEncoding bytes =
        characters interactive defaultEncoding bytes ↔
      (interactive = true ∨ utf8Bom <+: bytes ∨ defaultEncoding ≠ .utf8 ∨
        bytes.take 3 = replicate (min 3 bytes.length) 0) := by
  rw [Utf8FileBuffer.decoded, characters]
  by_cases hinteractive : interactive = true
  · simp [hinteractive]
  · by_cases hbom : utf8Bom <+: bytes
    · rw [if_neg hinteractive, if_pos hbom, if_pos ⟨by simpa using hinteractive, hbom⟩]
      exact ⟨fun _ => Or.inr (Or.inl hbom), fun _ => rfl⟩
    · by_cases hdefault : defaultEncoding = .utf8
      · simp only [hinteractive, hbom, hdefault, if_true, if_false, and_false, false_or,
          ne_eq, not_true_eq_false, Bool.false_eq_true]
        constructor
        · intro h
          have htake := congrArg (take (min 3 bytes.length)) h
          rw [take_left' length_replicate] at htake
          rw [htake, take_eq_take_iff]
          omega
        · intro h
          rw [← h]
          exact take_append_drop 3 bytes
      · simp [hinteractive, hbom, hdefault]

/-- A scanner that fills often enough is given everything. -/
theorem eq_of_delivers {expected expected' : List UInt8}
    (h : Delivers interactive defaultEncoding bytes expected)
    (h' : Delivers interactive defaultEncoding bytes expected') : expected = expected' := by
  obtain ⟨r, hrun, -, -, hall, hfills⟩ := h ⟨bytes, false, 0, fun _ => ⟨1, false⟩⟩ 0
    (replicate (bytes.length + 1) .fill) rfl (fun h => nomatch h)
  obtain ⟨r', hrun', -, -, hall', -⟩ := h' ⟨bytes, false, 0, fun _ => ⟨1, false⟩⟩ 0
    (replicate (bytes.length + 1) .fill) rfl (fun h => nomatch h)
  have hdone : r.buffer.filled = false := by
    apply hfills
    rw [count_replicate_self]
    exact Nat.lt_succ_self _
  have hsame : r = r' := Option.some.inj (hrun.symm.trans hrun')
  rw [← hall hdone, hsame]
  exact hall' (hsame ▸ hdone)

theorem delivers_characters_iff : Delivers interactive defaultEncoding bytes
        (characters interactive defaultEncoding bytes) ↔
      (interactive = true ∨ utf8Bom <+: bytes ∨ defaultEncoding ≠ .utf8 ∨
        bytes.take 3 = replicate (min 3 bytes.length) 0) := by
  rw [← decoded_eq_characters_iff]
  constructor
  · intro h
    exact eq_of_delivers delivers_decoded h
  · intro h
    rw [← h]
    exact delivers_decoded

/-- Over every run, a scanner is given the characters of the file, each once.  The
files left out are read in block mode with UTF-8 as the default encoding and have
no byte order mark. -/
theorem delivers_characters
    (h : interactive = true ∨ utf8Bom <+: bytes ∨ defaultEncoding ≠ .utf8) :
    Delivers interactive defaultEncoding bytes
      (characters interactive defaultEncoding bytes) := by
  apply delivers_characters_iff.mpr
  rcases h with h | h | h
  · exact Or.inl h
  · exact Or.inr (Or.inl h)
  · exact Or.inr (Or.inr (Or.inl h))

end

/-- A UTF-8 file of four characters after a byte order mark, in block mode. -/
theorem delivers_characters_bom :
    Delivers false .utf8 (utf8Bom ++ [0x61, 0xC3, 0xA9, 0x62, 0x0A])
        (characters false .utf8 (utf8Bom ++ [0x61, 0xC3, 0xA9, 0x62, 0x0A])) ∧
      characters false .utf8 (utf8Bom ++ [0x61, 0xC3, 0xA9, 0x62, 0x0A]) =
        [0x61, 0xC3, 0xA9, 0x62, 0x0A] :=
  ⟨delivers_characters (Or.inr (Or.inl (prefix_append _ _))), by decide⟩

/-- In interactive mode, the byte order mark is delivered with the characters
that follow it. -/
theorem interactive_keeps_bom :
    ¬ ∀ (interactive : Bool) (defaultEncoding : Encoding) (bytes : List UInt8),
      Delivers interactive defaultEncoding bytes (characters false defaultEncoding bytes) := by
  intro h
  obtain ⟨r, hrun, -, hprefix, -⟩ := h true .utf8 utf8Bom
    ⟨utf8Bom, false, 0, fun _ => ⟨1, false⟩⟩ 0 [.fill] rfl (fun h => nomatch h)
  have hdelivered : r.delivered = [239] := by
    rw [← Option.some.inj ((Eq.refl _).symm.trans hrun)]
    rfl
  rw [hdelivered] at hprefix
  exact absurd hprefix (by decide)

end Gobo
