/-
What filling a UTF-8 buffer delivers: the bytes of the file, converted as the
encoding found at its start asks for.
-/
import Gobo.Utf8FileBuffer

namespace Gobo

open List

/-- The UTF-8 encoding of bytes read as ISO-8859-1. -/
def utf8OfIso88591 (bytes : List UInt8) : List UInt8 :=
  bytes.flatMap fun c => String.utf8EncodeChar (Char.ofNat c.toNat)

theorem utf8EncodeChar_ofNat (c : UInt8) :
    String.utf8EncodeChar (Char.ofNat c.toNat) =
      if c.toNat ≤ 0x7F then [c]
      else [UInt8.ofNat (c.toNat / 64 + 192), UInt8.ofNat (c.toNat % 64 + 128)] := by
  have hlt : c.toNat < 256 := c.toNat_lt
  have hval : (Char.ofNat c.toNat).val.toNat = c.toNat := by
    rw [Char.ofNat, dif_pos (Or.inl (by omega))]
    rfl
  rw [String.utf8EncodeChar, hval]
  by_cases hc : c.toNat ≤ 0x7F
  · rw [if_pos hc, if_pos hc, UInt8.ofNat_toNat]
  · have hmod : c.toNat / 64 % 32 = c.toNat / 64 := Nat.mod_eq_of_lt (by omega)
    rw [if_neg hc, if_neg hc, if_pos (by omega), hmod]

theorem utf8OfIso88591_cons (c : UInt8) (bytes : List UInt8) :
    utf8OfIso88591 (c :: bytes) =
      String.utf8EncodeChar (Char.ofNat c.toNat) ++ utf8OfIso88591 bytes := rfl

theorem utf8OfIso88591_append (bytes bytes' : List UInt8) :
    utf8OfIso88591 (bytes ++ bytes') = utf8OfIso88591 bytes ++ utf8OfIso88591 bytes' :=
  flatMap_append

namespace Utf8FileBuffer

/-- Positions and sizes fit, and the end of the file is known at its end only. -/
structure Valid (b : Utf8FileBuffer) : Prop where
  index_pos : 1 ≤ b.index
  index_le : b.index ≤ b.count + 1
  count_le : b.count ≤ b.capacity
  room : b.content.count = b.capacity + 2
  ends : b.file.Ends
  endOfFile : b.endOfFile = true → b.file.endOfInput = true
  exhausted : b.filled = false → b.file.rest = []
  fresh : b.encoding = .unknown → ∀ i, b.content.item i = 0

theorem valid_makeWithSize {file : InputStream} (hfile : file.Ends) (interactive : Bool)
    (defaultEncoding : Encoding) (size : Nat) :
    (makeWithSize file interactive defaultEncoding size).Valid where
  index_pos := Nat.le_refl 1
  index_le := Nat.le_refl 1
  count_le := Nat.zero_le _
  room := rfl
  ends := hfile
  endOfFile := id
  exhausted := fun h => absurd h (by simp [makeWithSize])
  fresh := fun _ _ => rfl

section

variable {b : Utf8FileBuffer}

theorem Valid.grow_room (hb : b.Valid) : b.grow.content.count = b.grow.capacity + 2 ∧
      b.capacity + b.spaceNeeded ≤ b.grow.capacity ∧
      ∀ i ≤ b.content.count, b.grow.content.item i = b.content.item i := by
  have hroom := hb.room
  have hcapacity : b.capacity + b.spaceNeeded ≤ b.grow.capacity := by
    rw [grow]
    dsimp only
    split_ifs <;> omega
  have hcontent : b.grow.content = if b.content.count < b.grow.capacity + 2 then
      b.content.resize (b.grow.capacity + 2) else b.content := rfl
  refine ⟨?_, hcapacity, ?_⟩
  · rw [hcontent]
    split
    · exact CharacterBuffer.resize_count (by omega)
    · omega
  · intro i hi
    rw [hcontent]
    split
    · exact CharacterBuffer.resize_item hi
    · rfl

/-- What `compact_left` leaves: the same characters from position 1 on, and the
room that is needed after them. -/
structure Compacted (b b' : Utf8FileBuffer) : Prop where
  index : b'.index = 1
  count : b'.count = b.count + 1 - b.index
  available : b'.available = b.available
  space : b'.count + b.spaceNeeded ≤ b'.capacity
  room : b'.content.count = b'.capacity + 2
  fresh : (∀ i, b.content.item i = 0) → ∀ i, b'.content.item i = 0
  filled : b'.filled = b.filled
  interactive : b'.interactive = b.interactive
  endOfFile : b'.endOfFile = b.endOfFile
  file : b'.file = b.file
  encoding : b'.encoding = b.encoding
  defaultEncoding : b'.defaultEncoding = b.defaultEncoding

theorem Valid.exists_compactLeft (hb : b.Valid) :
    ∃ b', b.compactLeft = some b' ∧ Compacted b b' := by
  have hindex := hb.index_pos
  have hle := hb.index_le
  have hcount := hb.count_le
  have hroom := hb.room
  obtain ⟨hroom', hcapacity', hitem'⟩ := hb.grow_room
  -- The buffer after a possible growth.
  obtain ⟨content, capacity, hgrown, hroom₁, hspace, hcapacity, hitem, hzero⟩ :
      ∃ content capacity, (if b.capacity < b.count + 1 - b.index + b.spaceNeeded then b.grow
          else b) = { b with content, capacity } ∧ content.count = capacity + 2 ∧
        b.count + 1 - b.index + b.spaceNeeded ≤ capacity ∧ b.capacity ≤ capacity ∧
        (∀ i ≤ b.content.count, content.item i = b.content.item i) ∧
        ((∀ i, b.content.item i = 0) → ∀ i, content.item i = 0) := by
    by_cases hfull : b.capacity < b.count + 1 - b.index + b.spaceNeeded
    · rw [if_pos hfull]
      refine ⟨b.grow.content, b.grow.capacity, rfl, hroom', by omega, by omega, hitem', ?_⟩
      intro hzero i
      have hcontent : b.grow.content = if b.content.count < b.grow.capacity + 2 then
          b.content.resize (b.grow.capacity + 2) else b.content := rfl
      rw [hcontent]
      split
      · exact CharacterBuffer.resize_zero hzero
      · exact hzero i
    · rw [if_neg hfull]
      exact ⟨b.content, b.capacity, rfl, hroom, by omega, Nat.le_refl _, fun i _ => rfl, id⟩
  have havailable : content.slice b.index (b.count + 1 - b.index) = b.available := by
    apply CharacterBuffer.slice_congr
    intro j hj hj'
    exact hitem j (by omega)
  by_cases hone : b.index = 1
  · refine ⟨{ b with content, capacity }, ?_, ?_⟩
    · rw [compactLeft, hgrown]
      exact if_neg (not_not_intro hone)
    · rw [hone] at hspace
      exact ⟨hone, by simp [hone], havailable, by simpa using hspace, hroom₁, hzero,
        rfl, rfl, rfl, rfl, rfl, rfl⟩
  · obtain ⟨moved, hmove, hmovedCount, hslice, hmoved⟩ :=
      @CharacterBuffer.exists_moveLeft content b.index 1 (b.count + 1 - b.index + 2)
        (Nat.le_refl 1) (by omega)
    refine ⟨{ b with
      content := moved, capacity, index := 1, count := b.count + 1 - b.index }, ?_, ?_⟩
    · rw [compactLeft, hgrown]
      refine (if_pos hone).trans ?_
      exact bind_of_some hmove rfl
    · refine ⟨rfl, rfl, ?_, hspace, hmovedCount.trans hroom₁, ?_, rfl, rfl, rfl, rfl, rfl, rfl⟩
      · exact (CharacterBuffer.slice_of_add hslice).trans havailable
      · intro hall i
        obtain ⟨j, hj⟩ := hmoved i
        exact hj.trans (hzero hall j)

/-! ### Reading -/

/-- What is known of bytes read to `k`. -/
theorem exists_fetch {nb k : Nat} (hnb : 0 < nb) (hk : 1 ≤ k)
    (hfits : k + nb ≤ b.content.count + 1) :
    ∃ content, b.fetch nb k = some ⟨{ b with content, file := b.file.afterRead nb }, nb,
        (b.file.next nb).length, k⟩ ∧ content.count = b.content.count ∧
      content.slice k (b.file.next nb).length = b.file.next nb ∧
      ∀ j, j < k ∨ k + (b.file.next nb).length ≤ j → content.item j = b.content.item j := by
  obtain ⟨content, hrun, hcount, hslice, hitem⟩ :=
    CharacterBuffer.exists_fillFromStream b.file hnb hk hfits
  exact ⟨content, bind_of_some hrun rfl, hcount, hslice, hitem⟩

/-! ### Conversion -/

/-- One turn of the conversion loop. -/
theorem exists_convertStep {content : CharacterBuffer} {i j k : Nat} {c : UInt8}
    (hc : content.item k = c) (hroom : j + 2 ≤ content.count) :
    ∃ content', convertStep ⟨content, i, j, k⟩ = some ⟨content', i + 1,
        j + (String.utf8EncodeChar (Char.ofNat c.toNat)).length, k + 1⟩ ∧
      content'.count = content.count ∧
      content'.slice (j + 1) (String.utf8EncodeChar (Char.ofNat c.toNat)).length =
        String.utf8EncodeChar (Char.ofNat c.toNat) ∧
      ∀ l, l ≤ j ∨ j + 2 < l → content'.item l = content.item l := by
  rw [utf8EncodeChar_ofNat]
  by_cases hascii : c.toNat ≤ 0x7F
  · obtain ⟨content', hput, hcount, hitem, hother⟩ :=
      CharacterBuffer.exists_put c (by omega : 1 ≤ j + 1) (by omega : j + 1 ≤ content.count)
    refine ⟨content', ?_, hcount, ?_, ?_⟩
    · rw [convertStep, hc, if_pos hascii, if_pos hascii]
      exact bind_of_some hput rfl
    · rw [if_pos hascii]
      exact congrArg (fun d => [d]) hitem
    · intro l hl
      exact hother l (by omega)
  · obtain ⟨content₁, hput₁, hcount₁, hitem₁, hother₁⟩ :=
      CharacterBuffer.exists_put (UInt8.ofNat (c.toNat / 64 + 192))
        (by omega : 1 ≤ j + 1) (by omega : j + 1 ≤ content.count)
    obtain ⟨content₂, hput₂, hcount₂, hitem₂, hother₂⟩ :=
      CharacterBuffer.exists_put (UInt8.ofNat (c.toNat % 64 + 128))
        (by omega : 1 ≤ j + 2) (by omega : j + 2 ≤ content₁.count)
    refine ⟨content₂, ?_, hcount₂.trans hcount₁, ?_, ?_⟩
    · rw [convertStep, hc, if_neg hascii, if_neg hascii]
      exact bind_of_some hput₁ (bind_of_some hput₂ rfl)
    · rw [if_neg hascii]
      show [content₂.item (j + 1), content₂.item (j + 2)] = _
      rw [hitem₂, hother₂ (j + 1) (by omega), hitem₁]
    · intro l hl
      rw [hother₂ l (by omega), hother₁ l (by omega)]

/-- The loop that converts the characters `bytes` at `k` to the left, where there
is room for two bytes for each. -/
theorem exists_convertLoop {bytes : List UInt8} {content : CharacterBuffer}
    {i j k fuel : Nat} (hbytes : content.slice k bytes.length = bytes)
    (hroom : j + bytes.length < k) (hcount : k + bytes.length ≤ content.count + 1)
    (hfuel : bytes.length < fuel) :
    ∃ content' i' k', loopUntil (fun c => some (decide (i + bytes.length ≤ c.i)))
        convertStep fuel ⟨content, i, j, k⟩ =
        some ⟨content', i', j + (utf8OfIso88591 bytes).length, k'⟩ ∧
      content'.count = content.count ∧
      content'.slice (j + 1) (utf8OfIso88591 bytes).length = utf8OfIso88591 bytes ∧
      (∀ l ≤ j, content'.item l = content.item l) ∧
      (utf8OfIso88591 bytes).length ≤ 2 * bytes.length := by
  induction bytes generalizing content i j k fuel with
  | nil =>
      obtain ⟨fuel, rfl⟩ := Nat.exists_eq_succ_of_ne_zero (Nat.ne_of_gt hfuel)
      exact ⟨content, i, k, loopUntil_of_stop (by simp), rfl, rfl, fun _ _ => rfl,
        Nat.le_refl _⟩
  | cons c bytes ih =>
      obtain ⟨fuel, rfl⟩ := Nat.exists_eq_succ_of_ne_zero (Nat.ne_of_gt (Nat.zero_lt_of_lt hfuel))
      rw [length_cons] at hroom hcount hfuel
      rw [length_cons, CharacterBuffer.slice_succ] at hbytes
      obtain ⟨hc, hbytes⟩ := cons.inj hbytes
      obtain ⟨content₁, hstep, hcount₁, hslice₁, hother₁⟩ :=
        @exists_convertStep content i j k c hc (by omega)
      have hlength : (String.utf8EncodeChar (Char.ofNat c.toNat)).length ≤ 2 := by
        rw [utf8EncodeChar_ofNat]
        split <;> simp
      have hbytes₁ : content₁.slice (k + 1) bytes.length = bytes := by
        refine Eq.trans ?_ hbytes
        apply CharacterBuffer.slice_congr
        intro l hl _
        exact hother₁ l (by omega)
      obtain ⟨content₂, i', k', hrun, hcount₂, hslice₂, hitem₂, htotal⟩ :=
        @ih content₁ (i + 1) (j + (String.utf8EncodeChar (Char.ofNat c.toNat)).length)
          (k + 1) fuel hbytes₁ (by omega) (by omega) (by omega)
      refine ⟨content₂, i', k', (loopUntil_of_go ?_ hstep).trans ?_, hcount₂.trans hcount₁,
        ?_, ?_, ?_⟩
      · simp
      · rw [show i + (c :: bytes).length = i + 1 + bytes.length by
          rw [length_cons]
          omega, hrun, utf8OfIso88591_cons, length_append, Nat.add_assoc]
      · rw [utf8OfIso88591_cons, length_append, CharacterBuffer.slice_add]
        refine congrArg₂ (· ++ ·) ?_ ?_
        · refine Eq.trans ?_ hslice₁
          apply CharacterBuffer.slice_congr
          intro l _ hl
          exact hitem₂ l (by omega)
        · rw [show j + 1 + (String.utf8EncodeChar (Char.ofNat c.toNat)).length =
            j + (String.utf8EncodeChar (Char.ofNat c.toNat)).length + 1 by omega]
          exact hslice₂
      · intro l hl
        rw [hitem₂ l (by omega)]
        exact hother₁ l (Or.inl hl)
      · rw [utf8OfIso88591_cons, length_append, length_cons]
        omega

theorem exists_convert {bytes : List UInt8} {k : Nat}
    (hbytes : b.content.slice k bytes.length = bytes)
    (hroom : b.count + bytes.length < k) (hcount : k + bytes.length ≤ b.content.count + 1) :
    ∃ content, b.convert k bytes.length = some { b with
        content, count := b.count + (utf8OfIso88591 bytes).length } ∧
      content.count = b.content.count ∧
      content.slice (b.count + 1) (utf8OfIso88591 bytes).length = utf8OfIso88591 bytes ∧
      (∀ l ≤ b.count, content.item l = b.content.item l) ∧
      (utf8OfIso88591 bytes).length ≤ 2 * bytes.length := by
  obtain ⟨content, i', k', hrun, hrest⟩ :=
    @exists_convertLoop bytes b.content 1 b.count k (bytes.length + 1) hbytes hroom hcount
      (Nat.lt_succ_self _)
  refine ⟨content, ?_, hrest⟩
  have hstop : (fun c : Conversion => some (decide (bytes.length < c.i))) =
      fun c => some (decide (1 + bytes.length ≤ c.i)) := by
    funext c
    simp only [Nat.lt_iff_add_one_le, Nat.add_comm]
  rw [convert, hstop]
  exact bind_of_some hrun rfl

/-! ### Fetching -/

/-- What is put into the buffer for the bytes of a file of unknown encoding.
Where no byte order mark is found and UTF-8 is the default, the bytes looked at
are left where they are. -/
def decoded (interactive : Bool) (defaultEncoding : Encoding) (bytes : List UInt8) :
    List UInt8 :=
  if interactive then
    if defaultEncoding = .utf8 then bytes else utf8OfIso88591 bytes
  else if utf8Bom <+: bytes then bytes.drop 3
  else if defaultEncoding = .utf8 then
    replicate (min 3 bytes.length) 0 ++ bytes.drop 3
  else utf8OfIso88591 bytes

/-- What is still to be put into the buffer. -/
def pending (b : Utf8FileBuffer) : List UInt8 :=
  match b.encoding with
  | .utf8 => b.file.rest
  | .iso88591 => utf8OfIso88591 b.file.rest
  | .unknown => decoded b.interactive b.defaultEncoding b.file.rest

theorem pending_eq_nil (h : b.file.rest = []) : b.pending = [] := by
  rw [pending, h]
  cases b.encoding with
  | unknown =>
      show decoded b.interactive b.defaultEncoding [] = []
      simp [decoded, utf8Bom, utf8OfIso88591]
  | utf8 => rfl
  | iso88591 => rfl

/-- The bytes read are at their place for `fill`. -/
structure Fetched (b : Utf8FileBuffer) (f : Fetch) : Prop where
  buffer : f.buffer = { b with
    content := f.buffer.content, file := f.buffer.file, encoding := f.buffer.encoding }
  known : f.buffer.encoding ≠ .unknown
  room : f.buffer.content.count = b.content.count
  kept : ∀ j ≤ b.count, f.buffer.content.item j = b.content.item j
  ends : f.buffer.file.Ends
  exhausted : f.nb2 = 0 → f.buffer.file.rest = []
  shorter : 0 < f.nb2 → f.buffer.file.rest.length < b.file.rest.length
  utf8 : f.buffer.encoding = .utf8 → b.count + f.nb2 ≤ b.capacity ∧
    b.pending = f.buffer.content.slice (b.count + 1) f.nb2 ++ f.buffer.file.rest
  iso88591 : f.buffer.encoding = .iso88591 → b.count + f.nb2 < f.k ∧
    f.k + f.nb2 ≤ b.content.count + 1 ∧ b.count + 2 * f.nb2 ≤ b.capacity ∧
    b.pending = utf8OfIso88591 (f.buffer.content.slice f.k f.nb2 ++ f.buffer.file.rest)

theorem next_shorter {s : InputStream} {nb : Nat} (h : 0 < (s.next nb).length) :
    (s.afterRead nb).rest.length < s.rest.length := by
  have hsplit := congrArg length (@InputStream.next_append_rest s nb)
  rw [length_append] at hsplit
  omega

theorem rest_of_next_eq_nil {s : InputStream} {nb : Nat} (hnb : 0 < nb)
    (h : (s.next nb).length = 0) : (s.afterRead nb).rest = [] :=
  s.ends_afterRead (s.of_next_eq_nil hnb (length_eq_zero_iff.mp h)).2

/-- Bytes of a UTF-8 file, whose byte order mark may have been read before. -/
theorem exists_fetchUtf8 (hroom : b.content.count = b.capacity + 2) {nb : Nat}
    (hnb : 0 < nb) (hfits : b.count + nb ≤ b.capacity) {b₀ : Utf8FileBuffer}
    (hsame : b = { b₀ with content := b.content, file := b.file, encoding := .utf8 })
    (hcount₀ : b.content.count = b₀.content.count)
    (hkept : ∀ j ≤ b₀.count, b.content.item j = b₀.content.item j)
    (hshorter : b.file.rest.length ≤ b₀.file.rest.length)
    (hpending : b₀.pending = b.file.rest) :
    ∃ f, b.fetchUtf8 nb = some f ∧ Fetched b₀ f := by
  obtain ⟨content, hrun, hcount, hslice, hitem⟩ :=
    exists_fetch (b := b) hnb (Nat.succ_pos b.count)
      (by omega : b.count + 1 + nb ≤ b.content.count + 1)
  have hle := @InputStream.length_next_le b.file nb
  have hcount' : b.count = b₀.count := by rw [hsame]
  have hcapacity : b.capacity = b₀.capacity := by rw [hsame]
  refine ⟨_, hrun, ?_⟩
  exact {
    buffer := by
      rw [hsame]
    known := by
      rw [hsame]
      simp
    room := hcount.trans hcount₀
    kept := by
      intro j hj
      rw [← hkept j hj]
      exact hitem j (Or.inl (by omega))
    ends := InputStream.ends_afterRead _
    exhausted := rest_of_next_eq_nil hnb
    shorter := fun h => Nat.lt_of_lt_of_le (next_shorter h) hshorter
    utf8 := by
      intro _
      dsimp only
      rw [← hcount']
      refine ⟨by omega, ?_⟩
      rw [hpending, hslice, InputStream.next_append_rest]
    iso88591 := by
      intro h
      dsimp only at h
      rw [hsame] at h
      cases h }

/-- Bytes of an ISO-8859-1 file. -/
theorem exists_fetchIso88591 (hroom : b.content.count = b.capacity + 2) {nb : Nat}
    (hnb : 0 < nb) (hfits : b.count + 2 * nb ≤ b.capacity) {b₀ : Utf8FileBuffer}
    (hsame : b = { b₀ with encoding := .iso88591 })
    (hpending : b₀.pending = utf8OfIso88591 b.file.rest) :
    ∃ f, b.fetchIso88591 nb = some f ∧ Fetched b₀ f := by
  obtain ⟨content, hrun, hcount, hslice, hitem⟩ :=
    exists_fetch (b := b) hnb (by omega : 1 ≤ b.count + 1 + nb)
      (by omega : b.count + 1 + nb + nb ≤ b.content.count + 1)
  have hle := @InputStream.length_next_le b.file nb
  subst hsame
  refine ⟨_, hrun, ?_⟩
  exact {
    buffer := rfl
    known := by simp
    room := hcount
    kept := fun j hj => hitem j (Or.inl (by
      show j < b₀.count + 1 + nb
      omega))
    ends := InputStream.ends_afterRead _
    exhausted := rest_of_next_eq_nil hnb
    shorter := next_shorter
    utf8 := by
      intro h
      cases h
    iso88591 := by
      intro _
      dsimp only at hroom hfits hle ⊢
      refine ⟨by omega, by omega, by omega, ?_⟩
      rw [hpending, hslice, InputStream.next_append_rest] }

/-- What the loop that reads the first bytes keeps: those read are at `k`. -/
structure Begun (b : Utf8FileBuffer) (f : Fetch) : Prop where
  buffer : f.buffer = { b with content := f.buffer.content, file := f.buffer.file }
  nb : f.nb = 3
  k : f.k = b.count + 4
  nb2_le : f.nb2 ≤ 3
  bytes : f.buffer.content.slice f.k f.nb2 ++ f.buffer.file.rest = b.file.rest
  room : f.buffer.content.count = b.content.count
  kept : ∀ j < f.k, f.buffer.content.item j = b.content.item j
  ends : f.buffer.file.Ends

theorem Begun.exists_fetchMore {f : Fetch} (hf : Begun b f)
    (hroom : b.count + 6 ≤ b.content.count) (hnb2 : f.nb2 < 3) :
    ∃ g, fetchMore f = some g ∧ Begun b g ∧
      (g.buffer.file.endOfInput = true ∨ f.nb2 < g.nb2) := by
  have hnb := hf.nb
  have hk := hf.k
  have hcount := hf.room
  obtain ⟨content, hrun, hroom', hslice, hitem⟩ :=
    @exists_fetch f.buffer (f.nb - f.nb2) (f.k + f.nb2) (by omega) (by omega) (by omega)
  have hle := @InputStream.length_next_le f.buffer.file (f.nb - f.nb2)
  refine ⟨_, bind_of_some hrun rfl, ?_, ?_⟩
  · exact {
      buffer := by
        rw [hf.buffer]
      nb := hnb
      k := hk
      nb2_le := by
        dsimp only
        omega
      bytes := by
        have hkeep : content.slice f.k f.nb2 = f.buffer.content.slice f.k f.nb2 := by
          apply CharacterBuffer.slice_congr
          intro j _ hj
          exact hitem j (Or.inl hj)
        rw [CharacterBuffer.slice_add, hkeep, hslice, append_assoc,
          InputStream.next_append_rest, hf.bytes]
      room := hroom'.trans hcount
      kept := by
        intro j hj
        rw [← hf.kept j hj]
        exact hitem j (Or.inl (Nat.lt_add_right _ hj))
      ends := InputStream.ends_afterRead _ }
  · rcases Nat.eq_zero_or_pos (f.buffer.file.next (f.nb - f.nb2)).length with hzero | hpos
    · exact Or.inl (InputStream.of_next_eq_nil _ (by omega)
        (length_eq_zero_iff.mp hzero)).2
    · exact Or.inr (Nat.lt_add_of_pos_right hpos)

/-- The first three bytes are read, or all there are. -/
theorem Begun.exists_loop {f : Fetch} (hf : Begun b f)
    (hroom : b.count + 6 ≤ b.content.count) {fuel : Nat} (hfuel : 3 - f.nb2 < fuel) :
    ∃ g, loopUntil (fun f => some (decide (f.nb ≤ f.nb2) || f.buffer.file.endOfInput))
        fetchMore fuel f = some g ∧
      Begun b g ∧ (g.nb2 = 3 ∨ g.buffer.file.rest = []) := by
  induction fuel generalizing f with
  | zero => omega
  | succ fuel ih =>
      have hnb := hf.nb
      have hle := hf.nb2_le
      by_cases hended : f.buffer.file.endOfInput = true
      · exact ⟨f, loopUntil_of_stop (by simp [hended]), hf, Or.inr (hf.ends hended)⟩
      by_cases hfull : f.nb ≤ f.nb2
      · exact ⟨f, loopUntil_of_stop (by simp [hfull]), hf, Or.inl (by omega)⟩
      obtain ⟨g, hmore, hg, hprogress⟩ := hf.exists_fetchMore hroom (by omega)
      have hgo : some (decide (f.nb ≤ f.nb2) || f.buffer.file.endOfInput) = some false := by
        simp [hended, hfull]
      rcases hprogress with hended' | hmore'
      · obtain ⟨fuel, rfl⟩ := Nat.exists_eq_succ_of_ne_zero (by omega : fuel ≠ 0)
        refine ⟨g, (loopUntil_of_go ?_ hmore).trans (loopUntil_of_stop ?_), hg,
          Or.inr (hg.ends hended')⟩
        · exact hgo
        · simp [hended']
      · obtain ⟨k, hrun, hk⟩ := ih hg (by omega)
        refine ⟨k, (loopUntil_of_go ?_ hmore).trans hrun, hk⟩
        exact hgo

theorem exists_begun (hroom : b.content.count = b.capacity + 2)
    (hfits : b.count + 6 ≤ b.capacity) :
    ∃ f g, b.fetchIso88591 utf8Bom.length = some f ∧
      loopUntil (fun f => some (decide (f.nb ≤ f.nb2) || f.buffer.file.endOfInput))
        fetchMore (utf8Bom.length + 1) f = some g ∧
      Begun b g ∧ (g.nb2 = 3 ∨ g.buffer.file.rest = []) := by
  obtain ⟨content, hrun, hroom', hslice, hitem⟩ :=
    @exists_fetch b 3 (b.count + 1 + 3) (by omega) (by omega) (by omega)
  have hle := @InputStream.length_next_le b.file 3
  have hbegun : Begun b ⟨{ b with content, file := b.file.afterRead 3 }, 3,
      (b.file.next 3).length, b.count + 1 + 3⟩ := {
    buffer := rfl
    nb := rfl
    k := rfl
    nb2_le := hle
    bytes := by
      rw [hslice, InputStream.next_append_rest]
    room := hroom'
    kept := fun j hj => hitem j (Or.inl hj)
    ends := InputStream.ends_afterRead _ }
  obtain ⟨g, hloop, hg⟩ := hbegun.exists_loop (by omega)
    (Nat.lt_succ_of_le (Nat.sub_le 3 _))
  exact ⟨_, g, hrun, hloop, hg⟩

/-- The bytes looked at are the first three, or all there are. -/
theorem Begun.slice_eq {f : Fetch} (hf : Begun b f)
    (hall : f.nb2 = 3 ∨ f.buffer.file.rest = []) :
    f.buffer.content.slice f.k f.nb2 = b.file.rest.take 3 ∧
      f.buffer.file.rest = b.file.rest.drop 3 ∧ f.nb2 = min 3 b.file.rest.length := by
  have hle := hf.nb2_le
  have hlength : (f.buffer.content.slice f.k f.nb2).length = f.nb2 :=
    CharacterBuffer.length_slice
  rw [← hf.bytes, length_append, hlength]
  rcases hall with hthree | hrest
  · rw [take_left' (hlength.trans hthree), drop_left' (hlength.trans hthree)]
    exact ⟨rfl, rfl, by omega⟩
  · rw [hrest, append_nil, take_of_length_le (by omega), drop_of_length_le (by omega)]
    exact ⟨rfl, rfl, by simp only [length_nil, Nat.add_zero]; omega⟩

/-- The test for the byte order mark is right. -/
theorem Begun.isBom_iff {f : Fetch} (hf : Begun b f)
    (hall : f.nb2 = 3 ∨ f.buffer.file.rest = []) :
    (f.nb ≤ f.nb2 ∧ isEndianDetectionCharacter (f.buffer.content.item f.k)
      (f.buffer.content.item (f.k + 1)) (f.buffer.content.item (f.k + 2)) = true) ↔
      utf8Bom <+: b.file.rest := by
  obtain ⟨hslice, -, hnb2⟩ := hf.slice_eq hall
  rw [hf.nb, prefix_iff_eq_take, isEndianDetectionCharacter, beq_iff_eq,
    show utf8Bom.length = 3 from rfl]
  constructor
  · rintro ⟨hthree, hitem⟩
    have heq : f.nb2 = 3 := Nat.le_antisymm hf.nb2_le hthree
    rw [← hslice, heq]
    exact hitem.symm
  · intro heq
    have hlength := congrArg length heq
    rw [length_take] at hlength
    have hthree : f.nb2 = 3 := by
      rw [hnb2]
      exact hlength.symm
    refine ⟨Nat.le_of_eq hthree.symm, ?_⟩
    rw [heq, ← hslice, hthree]
    rfl

/-- The first bytes of a file of unknown encoding. -/
theorem exists_fetchFirst (hroom : b.content.count = b.capacity + 2)
    (hfits : b.count + 6 ≤ b.capacity) (hfresh : ∀ i, b.content.item i = 0)
    (hencoding : b.encoding = .unknown) (hinteractive : b.interactive = false) :
    ∃ f, b.fetchFirst = some f ∧ Fetched b f := by
  obtain ⟨f₀, f, hrun, hloop, hf, hall⟩ := exists_begun hroom hfits
  obtain ⟨hslice, hrest, hnb2⟩ := hf.slice_eq hall
  have hk := hf.k
  have hbom := hf.isBom_iff hall
  have hpending : b.pending = decoded false b.defaultEncoding b.file.rest := by
    rw [pending, hencoding, ← hinteractive]
  have hbegin : ∀ {P : Fetch → Option Fetch} {g : Fetch}, P f = some g →
      (b.fetchIso88591 utf8Bom.length).bind (fun f =>
        (loopUntil (fun f => some (decide (f.nb ≤ f.nb2) || f.buffer.file.endOfInput))
          fetchMore (utf8Bom.length + 1) f).bind P) = some g := by
    intro P g hP
    exact bind_of_some hrun (bind_of_some hloop hP)
  have hcount : f.buffer.count = b.count := by rw [hf.buffer]
  have hcapacity : f.buffer.capacity = b.capacity := by rw [hf.buffer]
  have hshorter : 0 < f.nb2 → f.buffer.file.rest.length < b.file.rest.length := by
    intro hpos
    rw [hrest, length_drop]
    omega
  have hexhausted : f.nb2 = 0 → f.buffer.file.rest = [] := by
    intro hzero
    rw [hrest, drop_eq_nil_iff]
    omega
  by_cases hmark : utf8Bom <+: b.file.rest
  · have hsame : ({ f.buffer with encoding := .utf8 } : Utf8FileBuffer) = { b with
        content := f.buffer.content, file := f.buffer.file, encoding := .utf8 } := by
      rw [hf.buffer]
    obtain ⟨g, hg, hfetched⟩ := @exists_fetchUtf8 { f.buffer with encoding := .utf8 }
      (hf.room.trans (hcapacity ▸ hroom)) (f.buffer.capacity - f.buffer.count) (by omega)
      (Nat.le_of_eq (Nat.add_sub_cancel' (by
        dsimp only
        omega))) b hsame hf.room (fun j hj => hf.kept j (by omega))
      (by
        rw [hrest, length_drop]
        omega)
      (by rw [hpending, decoded, if_neg Bool.false_ne_true, if_pos hmark, ← hrest])
    refine ⟨g, hbegin ?_, hfetched⟩
    exact (if_pos (hbom.mpr hmark)).trans hg
  · have hkept : ∀ j ≤ b.count, f.buffer.content.item j = b.content.item j :=
      fun j hj => hf.kept j (by omega)
    by_cases hdefault : b.defaultEncoding = .utf8
    · refine ⟨_, hbegin ((if_neg (mt hbom.mp hmark)).trans (if_pos hdefault)), ?_⟩
      -- The bytes read stay at `k`: the next positions hold what they held before.
      have hzeros : f.buffer.content.slice (b.count + 1) f.nb2 = replicate f.nb2 0 := by
        apply eq_replicate_iff.mpr
        refine ⟨CharacterBuffer.length_slice, ?_⟩
        intro c hc
        obtain ⟨j, hj, rfl⟩ := mem_map.mp hc
        have hj' := mem_range'_1.mp hj
        rw [hf.kept j (by omega), hfresh]
      exact {
        buffer := by
          rw [hf.buffer]
        known := by simp
        room := hf.room
        kept := hkept
        ends := hf.ends
        exhausted := hexhausted
        shorter := hshorter
        utf8 := by
          intro _
          dsimp only
          refine ⟨by omega, ?_⟩
          rw [hpending, decoded, if_neg Bool.false_ne_true, if_neg hmark, if_pos hdefault,
            hzeros, hrest, hnb2]
        iso88591 := fun h => nomatch h }
    · refine ⟨_, hbegin ((if_neg (mt hbom.mp hmark)).trans (if_neg hdefault)), ?_⟩
      exact {
        buffer := by
          rw [hf.buffer]
        known := by simp
        room := hf.room
        kept := hkept
        ends := hf.ends
        exhausted := hexhausted
        shorter := hshorter
        utf8 := fun h => nomatch h
        iso88591 := by
          intro _
          dsimp only
          refine ⟨by omega, by omega, by omega, ?_⟩
          rw [hpending, decoded, if_neg Bool.false_ne_true, if_neg hmark, if_neg hdefault,
            hf.bytes] }

theorem exists_fetchAny (hroom : b.content.count = b.capacity + 2)
    (hspace : b.count + b.spaceNeeded ≤ b.capacity)
    (hfresh : b.encoding = .unknown → ∀ i, b.content.item i = 0) :
    ∃ f, b.fetchAny = some f ∧ Fetched b f := by
  rw [spaceNeeded] at hspace
  by_cases hinteractive : b.interactive = true
  · by_cases hutf8 : b.encoding = .utf8 ∨ b.encoding = .unknown ∧ b.defaultEncoding = .utf8
    · have hencoding : (if b.encoding = .unknown then
          if b.defaultEncoding = .utf8 then .utf8 else .iso88591
          else b.encoding) = Encoding.utf8 := by
        rcases hutf8 with h | h <;> simp [h]
      have hone : b.count + 1 ≤ b.capacity := by
        rcases hutf8 with h | h <;> simp [h, hinteractive, maxBytesOfIso88591ToUtf8] at hspace <;>
          omega
      have hpending : b.pending = b.file.rest := by
        rcases hutf8 with h | h <;> simp [pending, decoded, h, hinteractive]
      obtain ⟨f, hrun, hf⟩ := @exists_fetchUtf8 { b with encoding := .utf8 } hroom 1
        Nat.one_pos hone b rfl rfl (fun _ _ => rfl) (Nat.le_refl _) hpending
      refine ⟨f, ?_, hf⟩
      rw [fetchAny, if_pos hinteractive, hencoding]
      exact hrun
    · have hencoding : (if b.encoding = .unknown then
          if b.defaultEncoding = .utf8 then .utf8 else .iso88591
          else b.encoding) = Encoding.iso88591 := by
        cases h : b.encoding <;> simp [h] at hutf8 ⊢
        exact hutf8
      have htwo : b.count + 2 * 1 ≤ b.capacity := by
        cases h : b.encoding <;>
          simp [h, hinteractive, maxBytesOfIso88591ToUtf8] at hspace hutf8 <;> omega
      have hpending : b.pending = utf8OfIso88591 b.file.rest := by
        cases h : b.encoding <;> simp [h] at hutf8 <;>
          simp [pending, decoded, h, hinteractive, hutf8]
      obtain ⟨f, hrun, hf⟩ := @exists_fetchIso88591 { b with encoding := .iso88591 } hroom 1
        Nat.one_pos htwo b rfl hpending
      refine ⟨f, ?_, hf⟩
      rw [fetchAny, if_pos hinteractive, hencoding]
      exact hrun
  · cases hencoding : b.encoding with
    | unknown =>
        have hsix : b.count + 6 ≤ b.capacity := by
          simpa [hencoding, hinteractive, utf8Bom, maxBytesOfIso88591ToUtf8] using hspace
        obtain ⟨f, hrun, hf⟩ := exists_fetchFirst hroom hsix (hfresh hencoding) hencoding
          (Bool.eq_false_iff.mpr hinteractive)
        refine ⟨f, ?_, hf⟩
        rw [fetchAny, if_neg hinteractive, hencoding]
        exact hrun
    | utf8 =>
        rw [hencoding] at hspace
        have hone : b.count + 1 ≤ b.capacity := hspace
        obtain ⟨f, hrun, hf⟩ := @exists_fetchUtf8 b hroom (b.capacity - b.count)
          (by omega) (by omega) b (by rw [← hencoding]) rfl (fun _ _ => rfl) (Nat.le_refl _)
          (by rw [pending, hencoding])
        refine ⟨f, ?_, hf⟩
        rw [fetchAny, if_neg hinteractive, hencoding]
        exact hrun
    | iso88591 =>
        rw [hencoding] at hspace
        have htwo : b.count + 2 ≤ b.capacity := hspace
        obtain ⟨f, hrun, hf⟩ := @exists_fetchIso88591 b hroom ((b.capacity - b.count) / 2)
          (by omega) (by omega) b (by rw [← hencoding]) (by rw [pending, hencoding])
        refine ⟨f, ?_, hf⟩
        rw [fetchAny, if_neg hinteractive, hencoding]
        exact hrun

/-! ### Filling -/

/-- What `fill` does: the bytes `out` come next, of all that are pending. -/
structure Filled (b b' : Utf8FileBuffer) (out : List UInt8) : Prop where
  valid : b'.Valid
  available : b'.available = b.available ++ out
  pending : b.pending = out ++ b'.pending
  shorter : b'.filled = true → b'.file.rest.length < b.file.rest.length
  interactive : b'.interactive = b.interactive
  defaultEncoding : b'.defaultEncoding = b.defaultEncoding

/-- The two characters that end the buffer. -/
theorem exists_terminate {content : CharacterBuffer} {count : Nat}
    (h : count + 2 ≤ content.count) :
    ∃ content₁ content₂, content.put 0 (count + 1) = some content₁ ∧
      content₁.put 0 (count + 2) = some content₂ ∧ content₂.count = content.count ∧
      ∀ i ≤ count, content₂.item i = content.item i := by
  obtain ⟨content₁, hput₁, hcount₁, -, hother₁⟩ :=
    CharacterBuffer.exists_put 0 (by omega : 1 ≤ count + 1) (by omega : count + 1 ≤ content.count)
  obtain ⟨content₂, hput₂, hcount₂, -, hother₂⟩ :=
    CharacterBuffer.exists_put 0 (by omega : 1 ≤ count + 2) (by omega : count + 2 ≤ content₁.count)
  refine ⟨content₁, content₂, hput₁, hput₂, hcount₂.trans hcount₁, ?_⟩
  intro i hi
  rw [hother₂ i (by omega), hother₁ i (by omega)]

/-- The bytes fetched become characters after position `count`. -/
theorem Fetched.exists_stored {f : Fetch} (hf : Fetched b f) (ended : Bool) :
    ∃ content count out, (if f.buffer.encoding = .iso88591
        then ({ f.buffer with endOfFile := ended } : Utf8FileBuffer).convert f.k f.nb2
        else some { f.buffer with endOfFile := ended, count := f.buffer.count + f.nb2 }) =
        some { f.buffer with endOfFile := ended, content, count } ∧
      count = b.count + out.length ∧ count ≤ b.capacity ∧ content.count = b.content.count ∧
      content.slice 1 count = b.content.slice 1 b.count ++ out ∧
      b.pending = out ++ f.buffer.pending := by
  have hcount : f.buffer.count = b.count := by rw [hf.buffer]
  have hslice : ∀ {content : CharacterBuffer} {out : List UInt8},
      content.slice (b.count + 1) out.length = out →
      (∀ i ≤ b.count, content.item i = b.content.item i) →
      content.slice 1 (b.count + out.length) = b.content.slice 1 b.count ++ out := by
    intro content out hout hkept
    rw [CharacterBuffer.slice_add, Nat.add_comm 1, hout]
    refine congrArg (· ++ out) ?_
    apply CharacterBuffer.slice_congr
    intro i _ hi
    exact hkept i (by omega)
  cases hencoding : f.buffer.encoding with
  | unknown => exact absurd hencoding hf.known
  | utf8 =>
      obtain ⟨hfits, hpending⟩ := hf.utf8 hencoding
      refine ⟨f.buffer.content, b.count + f.nb2, f.buffer.content.slice (b.count + 1) f.nb2,
        ?_, by rw [CharacterBuffer.length_slice], hfits, hf.room, ?_, ?_⟩
      · rw [if_neg (by simp), hcount]
      · have h := @hslice f.buffer.content (f.buffer.content.slice (b.count + 1) f.nb2)
          (by rw [CharacterBuffer.length_slice]) hf.kept
        rwa [CharacterBuffer.length_slice] at h
      · rw [hpending, Utf8FileBuffer.pending.eq_def f.buffer, hencoding]
  | iso88591 =>
      obtain ⟨hright, hlast, hfits, hpending⟩ := hf.iso88591 hencoding
      obtain ⟨content, hrun, hroom', hout, hkept, hlength⟩ :=
        @exists_convert { f.buffer with endOfFile := ended }
          (f.buffer.content.slice f.k f.nb2) f.k (by rw [CharacterBuffer.length_slice])
          (by
            rw [CharacterBuffer.length_slice]
            show f.buffer.count + f.nb2 < f.k
            omega)
          (by
            rw [CharacterBuffer.length_slice, hf.room]
            exact hlast)
      dsimp only at hroom' hout hkept
      rw [CharacterBuffer.length_slice] at hrun hlength
      rw [hcount] at hout hkept
      replace hrun := hrun.trans (by rw [hcount])
      refine ⟨content, b.count + (utf8OfIso88591 (f.buffer.content.slice f.k f.nb2)).length,
        utf8OfIso88591 (f.buffer.content.slice f.k f.nb2), ?_, rfl, by omega,
        hroom'.trans hf.room, ?_, ?_⟩
      · rw [if_pos rfl]
        exact hrun
      · exact hslice hout fun i hi => (hkept i hi).trans (hf.kept i hi)
      · rw [hpending, utf8OfIso88591_append, Utf8FileBuffer.pending.eq_def f.buffer, hencoding]

theorem Valid.exists_fill (hb : b.Valid) : ∃ b' out, b.fill = some b' ∧ Filled b b' out := by
  by_cases hopen : b.filled ∧ b.endOfFile = false
  · obtain ⟨c, hcompact, hc⟩ := hb.exists_compactLeft
    have hspace : c.count + c.spaceNeeded ≤ c.capacity := by
      have h := hc.space
      rwa [spaceNeeded, ← hc.encoding, ← hc.interactive, ← spaceNeeded] at h
    obtain ⟨f, hfetch, hf⟩ := exists_fetchAny hc.room hspace fun h =>
      hc.fresh (hb.fresh (hc.encoding.symm.trans h))
    obtain ⟨content, count, out, hstore, hcount, hle, hroom, hslice, hpending⟩ :=
      hf.exists_stored (if f.nb2 < f.nb then f.buffer.file.endOfInput else f.buffer.endOfFile)
    obtain ⟨content₁, content₂, hput₁, hput₂, hroom₂, hkept₂⟩ :=
      @exists_terminate content count (by
        rw [hroom, hc.room]
        omega)
    refine ⟨{ f.buffer with
      endOfFile := if f.nb2 < f.nb then f.buffer.file.endOfInput else f.buffer.endOfFile
      content := content₂
      count
      filled := decide (0 < f.nb2) }, out, ?_, ?_⟩
    · rw [fill, if_pos hopen]
      exact bind_of_some hcompact (bind_of_some hfetch
        (bind_of_some hstore (bind_of_some hput₁
          (bind_of_some hput₂ rfl))))
    have hindex : f.buffer.index = 1 := by
      rw [hf.buffer]
      exact hc.index
    have hcapacity : f.buffer.capacity = c.capacity := by rw [hf.buffer]
    have hshorter := hf.shorter
    rw [hc.file] at hshorter
    exact {
      valid := {
        index_pos := Nat.le_of_eq hindex.symm
        index_le := by
          dsimp only
          omega
        count_le := by
          dsimp only
          omega
        room := by
          rw [hroom₂, hroom, hc.room, hcapacity]
        ends := hf.ends
        endOfFile := by
          intro hended
          split at hended
          · exact hended
          · rw [hf.buffer] at hended
            dsimp only at hended
            rw [hc.endOfFile, hopen.2] at hended
            cases hended
        exhausted := by
          intro hzero
          exact hf.exhausted (by simpa using hzero)
        fresh := fun h => absurd h hf.known }
      available := by
        have hfirst : content₂.slice 1 count = content.slice 1 count := by
          apply CharacterBuffer.slice_congr
          intro i _ hi
          exact hkept₂ i (by omega)
        have havailable := hc.available
        rw [Utf8FileBuffer.available, hc.index, Nat.add_sub_cancel] at havailable
        rw [Utf8FileBuffer.available]
        rw [hindex, Nat.add_sub_cancel, hfirst, hslice, havailable]
      pending := by
        have hsame : b.pending = c.pending := by
          rw [Utf8FileBuffer.pending, Utf8FileBuffer.pending, hc.encoding, hc.file,
            hc.interactive, hc.defaultEncoding]
        rw [hsame, hpending]
        rfl
      shorter := fun h => hshorter (of_decide_eq_true h)
      interactive := by
        rw [hf.buffer]
        exact hc.interactive
      defaultEncoding := by
        rw [hf.buffer]
        exact hc.defaultEncoding }
  · refine ⟨{ b with filled := false }, [], if_neg hopen, ?_⟩
    exact {
      valid := { hb with
        exhausted := by
          intro _
          by_cases hfilled : b.filled = true
          · refine hb.ends (hb.endOfFile ?_)
            simpa [hfilled] using hopen
          · exact hb.exhausted (Bool.eq_false_iff.mpr hfilled) }
      available := (append_nil _).symm
      pending := rfl
      shorter := fun h => nomatch h
      interactive := rfl
      defaultEncoding := rfl }

end

end Utf8FileBuffer

end Gobo
