import Nigiri.AsciiCase
import Nigiri.CheckedInt
import Nigiri.WireFormat

/-! Reading one file out of a container: its tar archive is collected under a bound and accepted
only with strict framing. Entries are read by a tar library, which is a parameter. A computation
that can panic gives an option, and an error is its text. -/
namespace Nigiri.Fixtures
open Nigiri.WireFormat Nigiri.AsciiCase

def TAR_ARCHIVE_OVERHEAD_BYTES : UInt64 := 64 * 1024
def TAR_BLOCK_BYTES : UInt64 := 512
def TAR_END_BLOCKS : UInt64 := 2
def DOCKER_FILE_MODE_TYPE_MASK : UInt32 := 0x8f280000

/-- Bytes in memory: their count is a machine word. -/
structure Slice where
  bytes : Bytes
  length_lt : bytes.length < 2 ^ 64

def Slice.len (slice : Slice) : UInt64 := UInt64.ofNat slice.bytes.length

/-- The bytes of a range; a range that is not in the slice is a panic. -/
def Slice.range (slice : Slice) (start stop : UInt64) : Option Bytes :=
  if start ≤ stop ∧ stop ≤ slice.len then
    some ((slice.bytes.take stop.toNat).drop start.toNat)
  else none

def checkedAdd (a b : UInt64) : Option UInt64 :=
  if a.toNat + b.toNat < 2 ^ 64 then some (a + b) else none

def checkedMul (a b : UInt64) : Option UInt64 :=
  if a.toNat * b.toNat < 2 ^ 64 then some (a * b) else none

/-- The four bounds of a framing, or none when one of them is no machine word. A product that
overflows without a check is a panic. -/
def framingBounds (fileSize : UInt64) : Option (Option (UInt64 × UInt64 × UInt64)) :=
  match checkedAdd fileSize (TAR_BLOCK_BYTES - 1) with
  | none => some none
  | some size =>
    match checkedMul (size / TAR_BLOCK_BYTES) TAR_BLOCK_BYTES with
    | none => none
    | some paddedFileSize =>
      match checkedAdd TAR_BLOCK_BYTES fileSize, checkedAdd TAR_BLOCK_BYTES paddedFileSize with
      | some contentEnd, some paddingEnd =>
        match (checkedMul TAR_BLOCK_BYTES TAR_END_BLOCKS).bind (checkedAdd paddingEnd) with
        | some terminationEnd => some (some (contentEnd, paddingEnd, terminationEnd))
        | none => some none
      | _, _ => some none

def validateStrictTarFraming (archive : Slice) (fileSize : UInt64) :
    Option (Except String Unit) :=
  match framingBounds fileSize with
  | none => none
  | some none => some (.error "container file archive size is invalid")
  | some (some (contentEnd, paddingEnd, terminationEnd)) =>
    if archive.len < terminationEnd ∨ archive.len % TAR_BLOCK_BYTES ≠ 0 then
      some (.error "container file archive framing is truncated")
    else match archive.range contentEnd paddingEnd with
      | none => none
      | some padding =>
        if padding.any (· ≠ 0) then some (.error "container file archive padding is invalid")
        else match archive.range paddingEnd archive.len with
          | none => none
          | some termination =>
            if termination.any (· ≠ 0) then
              some (.error "container file archive termination is invalid")
            else some (.ok ())

/-- What the tar library reads of an entry; reading at most some bytes of it can fail. -/
structure TarEntry where
  isFile : Bool
  pathBytes : Bytes
  entrySize : Option UInt64
  read : UInt64 → Option Bytes

/-- The entries of an archive, extension entries among them, until the first that is invalid. -/
structure TarLib where
  entries : Bytes → Option (List (Option TarEntry))

def saturatingAdd (a b : UInt64) : UInt64 := (checkedAdd a b).getD (UInt64.ofNat (2 ^ 64 - 1))

/-- The contents of the first entry, once it is the file that was asked for. -/
def readEntry (first : TarEntry) (expectedBasename : Bytes) (expectedSize : UInt64) :
    Except String Bytes :=
  if first.isFile = false then
    .error "container file archive entry is not a regular file"
  else if first.pathBytes ≠ expectedBasename then
    .error "container file archive entry name is invalid"
  else match first.entrySize with
    | none => .error "container file archive size is invalid"
    | some declaredSize =>
      if declaredSize ≠ expectedSize then
        .error "container file archive size does not match metadata"
      else match first.read (saturatingAdd expectedSize 1) with
        | none => .error "container file archive content is invalid"
        | some contents =>
          if contents.length ≠ expectedSize.toNat then
            .error "container file archive content is truncated"
          else .ok contents

def readSingleEntry (entries : List (Option TarEntry)) (expectedBasename : Bytes)
    (expectedSize : UInt64) : Except String Bytes :=
  match entries with
  | [] => .error "container file archive is empty"
  | none :: _ => .error "container file archive entry is invalid"
  | some first :: rest =>
    match readEntry first expectedBasename expectedSize with
    | .error error => .error error
    | .ok contents =>
      match rest with
      | [] => .ok contents
      | some _ :: _ => .error "container file archive contains multiple entries"
      | none :: _ => .error "container file archive entry is invalid"

def decodeSingleFileArchive (tar : TarLib) (archive : Slice) (expectedBasename : Bytes)
    (expectedSize maxBytes : UInt64) : Option (Except String Bytes) :=
  if maxBytes < expectedSize then
    some (.error "container file exceeds requested byte limit")
  else match validateStrictTarFraming archive expectedSize with
    | none => none
    | some (.error error) => some (.error error)
    | some (.ok ()) =>
      match tar.entries archive.bytes with
      | none => some (.error "container file archive is invalid")
      | some entries => some (readSingleEntry entries expectedBasename expectedSize)

def appendArchiveChunk (archive chunk : Bytes) (maximumBytes : Nat) : Except String Bytes :=
  let remaining := maximumBytes - archive.length
  if maximumBytes < archive.length ∨ remaining < chunk.length then
    .error "container file archive exceeds its bounded overhead"
  else .ok (archive ++ chunk)

/-- Appending the chunks of a download one by one; a request that fails has its error. -/
def collectArchive (archive : Bytes) (maximumBytes : Nat) :
    List (Except String Bytes) → Except String Bytes
  | [] => .ok archive
  | .error error :: _ => .error error
  | .ok chunk :: chunks =>
    match appendArchiveChunk archive chunk maximumBytes with
    | .error error => .error error
    | .ok archive => collectArchive archive maximumBytes chunks

theorem appendArchiveChunk_ok {archive chunk appended : Bytes} {maximumBytes : Nat} :
    appendArchiveChunk archive chunk maximumBytes = .ok appended ↔
      appended = archive ++ chunk ∧ (archive ++ chunk).length ≤ maximumBytes := by
  unfold appendArchiveChunk
  rw [List.length_append]
  by_cases hroom : maximumBytes < archive.length ∨ maximumBytes - archive.length < chunk.length
  · simp only [if_pos hroom]
    constructor
    · intro h
      cases h
    · intro h
      omega
  · simp only [if_neg hroom]
    constructor
    · intro h
      cases h
      exact ⟨rfl, by omega⟩
    · intro h
      rw [h.1]

/-- What is collected never grows past its bound, not even in between. -/
theorem collectArchive_ok {archive collected : Bytes} {maximumBytes : Nat}
    {chunks : List (Except String Bytes)} (hroom : archive.length ≤ maximumBytes) :
    collectArchive archive maximumBytes chunks = .ok collected ↔
      collected.length ≤ maximumBytes ∧
        ∃ parts : List Bytes, chunks = parts.map .ok ∧ collected = archive ++ parts.flatten := by
  induction chunks generalizing archive with
  | nil =>
    constructor
    · intro h
      cases h
      exact ⟨hroom, [], rfl, by rw [List.flatten_nil, List.append_nil]⟩
    · intro h
      obtain ⟨_, parts, hparts, rfl⟩ := h
      rw [List.map_eq_nil_iff.mp hparts.symm]
      simp [collectArchive]
  | cons chunk chunks ih =>
    cases chunk with
    | error error =>
      rw [collectArchive]
      constructor
      · intro h
        cases h
      · intro h
        obtain ⟨_, parts, hparts, _⟩ := h
        cases parts <;> cases hparts
    | ok chunk =>
      have hstep : collectArchive archive maximumBytes (.ok chunk :: chunks) = .ok collected ↔
          (archive ++ chunk).length ≤ maximumBytes ∧
            collectArchive (archive ++ chunk) maximumBytes chunks = .ok collected := by
        rw [collectArchive]
        cases happend : appendArchiveChunk archive chunk maximumBytes with
        | error error =>
          constructor
          · intro h
            cases h
          · intro h
            rw [appendArchiveChunk_ok.mpr ⟨rfl, h.1⟩] at happend
            cases happend
        | ok appended =>
          obtain ⟨rfl, hlength⟩ := appendArchiveChunk_ok.mp happend
          constructor
          · intro h
            exact ⟨hlength, h⟩
          · intro h
            exact h.2
      rw [hstep]
      constructor
      · intro h
        obtain ⟨hlength, parts, rfl, rfl⟩ := (ih h.1).mp h.2
        refine ⟨hlength, chunk :: parts, rfl, ?_⟩
        rw [List.flatten_cons, List.append_assoc]
      · intro h
        obtain ⟨hlength, parts, hparts, rfl⟩ := h
        cases parts with
        | nil => cases hparts
        | cons part parts =>
          cases hparts
          have hflatten : archive ++ (chunk :: parts).flatten =
              archive ++ chunk ++ parts.flatten := by
            rw [List.flatten_cons, List.append_assoc]
          have hroom : (archive ++ chunk).length ≤ maximumBytes := by
            rw [hflatten, List.length_append] at hlength
            omega
          exact ⟨hroom, (ih hroom).mpr ⟨hlength, parts, rfl, hflatten⟩⟩

def isTraversal (component : Bytes) : Bool := component == [0x2e] || component == [0x2e, 0x2e]

/-- The last component of an absolute path that has no odd components. -/
def expectedArchiveBasename (path : Bytes) : Except String Bytes :=
  match path with
  | 0x2f :: relative =>
    if relative = [] ∨ path.contains 0x5c ∨ path.contains 0 then
      .error "container file path is not canonical"
    else
      let components := relative.splitOn 0x2f
      if components.any fun component => component.isEmpty || isTraversal component then
        .error "container file path is not canonical"
      else match components.getLast? with
        | none => .error "container file path is not canonical"
        | some basename => .ok basename
  | _ => .error "container file path is not canonical"

structure PathStatResponse where
  name : Bytes
  size : Int64
  fileMode : UInt32
  linkTarget : Bytes

def validateContainerFileStat (stat : PathStatResponse) (expectedBasename : Bytes)
    (maxBytes : UInt64) : Except String UInt64 :=
  if stat.name ≠ expectedBasename then .error "container file metadata name is invalid"
  else if stat.linkTarget ≠ [] ∨ stat.fileMode &&& DOCKER_FILE_MODE_TYPE_MASK ≠ 0 then
    .error "container file metadata is not a regular file"
  else if stat.size < 0 then .error "container file metadata size is invalid"
  else if maxBytes < stat.size.toUInt64 then .error "container file exceeds requested byte limit"
  else .ok stat.size.toUInt64

/-- The whole reading, of what the container runtime answers about a path. -/
def readContainerFile (tar : TarLib) (path : Bytes) (maxBytes : UInt64)
    (stat : Except String PathStatResponse) (chunks : List (Except String Bytes)) :
    Option (Except String Bytes) :=
  match expectedArchiveBasename path with
  | .error error => some (.error error)
  | .ok expectedBasename =>
    match stat with
    | .error error => some (.error error)
    | .ok stat =>
      match validateContainerFileStat stat expectedBasename maxBytes with
      | .error error => some (.error error)
      | .ok expectedSize =>
        match checkedAdd maxBytes TAR_ARCHIVE_OVERHEAD_BYTES with
        | none => some (.error "container file byte limit is too large")
        | some archiveLimit =>
          match hcollected : collectArchive [] archiveLimit.toNat chunks with
          | .error error => some (.error error)
          | .ok archive =>
            have hlength := ((collectArchive_ok (Nat.zero_le _)).mp hcollected).1
            decodeSingleFileArchive tar ⟨archive, Nat.lt_of_le_of_lt hlength archiveLimit.toNat_lt⟩
              expectedBasename expectedSize maxBytes

/-- A length rounded up to whole blocks. -/
def roundUp (n : Nat) : Nat := (n + 511) / 512 * 512

section Arithmetic
variable {a b c : UInt64}

theorem checkedAdd_some (h : checkedAdd a b = some c) : c.toNat = a.toNat + b.toNat :=
  CheckedInt.checkedAdd_eq_some_iff.mp h

theorem checkedAdd_none (h : checkedAdd a b = none) : 2 ^ 64 ≤ a.toNat + b.toNat :=
  CheckedInt.checkedAdd_eq_none_iff.mp h

theorem checkedMul_some (h : checkedMul a b = some c) : c.toNat = a.toNat * b.toNat :=
  CheckedInt.checkedMul_eq_some_iff.mp h

theorem checkedMul_none (h : checkedMul a b = none) : 2 ^ 64 ≤ a.toNat * b.toNat :=
  CheckedInt.checkedMul_eq_none_iff.mp h

theorem end_blocks : checkedMul TAR_BLOCK_BYTES TAR_END_BLOCKS = some 1024 := by
  simp [checkedMul, TAR_BLOCK_BYTES, TAR_END_BLOCKS]

theorem toNat_block : TAR_BLOCK_BYTES.toNat = 512 := rfl

theorem toNat_block_pred : (TAR_BLOCK_BYTES - 1).toNat = 511 := rfl

theorem Slice.toNat_len (slice : Slice) : slice.len.toNat = slice.bytes.length := by
  rw [Slice.len, UInt64.toNat_ofNat', Nat.mod_eq_of_lt slice.length_lt]

end Arithmetic

section Framing
variable {archive : Slice} {fileSize contentEnd paddingEnd terminationEnd : UInt64}

/-- Rounding a size up never overflows by itself. -/
theorem framingBounds_total (fileSize : UInt64) : framingBounds fileSize ≠ none := by
  intro hpanic
  unfold framingBounds at hpanic
  cases hsize : checkedAdd fileSize (TAR_BLOCK_BYTES - 1) with
  | none => simp [hsize] at hpanic
  | some size =>
    cases hpadded : checkedMul (size / TAR_BLOCK_BYTES) TAR_BLOCK_BYTES with
    | none =>
      have hover := checkedMul_none hpadded
      have hlt := size.toNat_lt
      rw [UInt64.toNat_div, toNat_block] at hover
      omega
    | some padded =>
      simp only [hsize, hpadded] at hpanic
      split at hpanic
      · split at hpanic <;> cases hpanic
      · cases hpanic

theorem framingBounds_some
    (h : framingBounds fileSize = some (some (contentEnd, paddingEnd, terminationEnd))) :
    contentEnd.toNat = 512 + fileSize.toNat ∧ paddingEnd.toNat = 512 + roundUp fileSize.toNat ∧
      terminationEnd.toNat = 512 + roundUp fileSize.toNat + 1024 := by
  unfold framingBounds at h
  split at h
  · cases h
  · rename_i size hsize
    split at h
    · cases h
    · rename_i padded hpadded
      split at h
      · rename_i content padding hcontent hpadding
        split at h
        · rename_i termination htermination
          cases h
          rw [end_blocks, Option.bind_some] at htermination
          have h1 := checkedAdd_some hsize
          have h2 := checkedMul_some hpadded
          have h3 := checkedAdd_some hcontent
          have h4 := checkedAdd_some hpadding
          have h6 := checkedAdd_some htermination
          rw [toNat_block_pred] at h1
          rw [UInt64.toNat_div, toNat_block, h1] at h2
          rw [toNat_block] at h3 h4
          have hend : (1024 : UInt64).toNat = 1024 := rfl
          unfold roundUp
          omega
        · cases h
      · cases h

theorem framingBounds_none (h : framingBounds fileSize = some none) :
    2 ^ 64 ≤ 512 + roundUp fileSize.toNat + 1024 := by
  unfold framingBounds at h
  unfold roundUp
  split at h
  · rename_i hsize
    have h1 := checkedAdd_none hsize
    rw [toNat_block_pred] at h1
    omega
  · rename_i size hsize
    have h1 := checkedAdd_some hsize
    rw [toNat_block_pred] at h1
    split at h
    · cases h
    · rename_i padded hpadded
      have h2 := checkedMul_some hpadded
      rw [UInt64.toNat_div, toNat_block, h1] at h2
      split at h
      · rename_i content padding hcontent hpadding
        have h4 := checkedAdd_some hpadding
        rw [toNat_block] at h4
        split at h
        · cases h
        · rename_i htermination
          rw [end_blocks, Option.bind_some] at htermination
          have h6 := checkedAdd_none htermination
          have hend : (1024 : UInt64).toNat = 1024 := rfl
          omega
      · rename_i hbounds
        by_contra hlt
        cases hcontent : checkedAdd TAR_BLOCK_BYTES fileSize with
        | none =>
          have h3 := checkedAdd_none hcontent
          rw [toNat_block] at h3
          omega
        | some content =>
          cases hpadding : checkedAdd TAR_BLOCK_BYTES padded with
          | none =>
            have h4 := checkedAdd_none hpadding
            rw [toNat_block] at h4
            omega
          | some padding => exact hbounds content padding hcontent hpadding

theorem Slice.range_eq {start stop : UInt64} (hle : start.toNat ≤ stop.toNat)
    (hstop : stop.toNat ≤ archive.bytes.length) :
    archive.range start stop = some ((archive.bytes.take stop.toNat).drop start.toNat) := by
  rw [Slice.range, if_pos]
  rw [UInt64.le_iff_toNat_le, UInt64.le_iff_toNat_le, Slice.toNat_len]
  exact ⟨hle, hstop⟩

/-- A well-framed archive of a file: whole blocks, two of them behind the padded contents, and
nothing but zeroes behind the contents. -/
structure Framed (archive : Bytes) (size : Nat) : Prop where
  blocks : archive.length % 512 = 0
  room : 512 + roundUp size + 1024 ≤ archive.length
  zeroes : ∀ b ∈ archive.drop (512 + size), b = 0

theorem zeroes_split {bytes : Bytes} {content padding : Nat} (hle : content ≤ padding)
    (hroom : padding ≤ bytes.length) :
    (∀ b ∈ bytes.drop content, b = 0) ↔
      ((bytes.take padding).drop content).any (· ≠ 0) = false ∧
        ((bytes.take bytes.length).drop padding).any (· ≠ 0) = false := by
  have hsplit : bytes.drop content =
      (bytes.take padding).drop content ++ bytes.drop padding := by
    calc bytes.drop content = (bytes.take padding ++ bytes.drop padding).drop content := by
          rw [List.take_append_drop]
      _ = (bytes.take padding).drop content ++ bytes.drop padding := by
          rw [List.drop_append_of_le_length (by rw [List.length_take]; omega)]
  rw [hsplit, List.take_length]
  simp only [List.mem_append, List.any_eq_false]
  constructor
  · intro hzero
    constructor
    · intro b hb
      simp [hzero b (.inl hb)]
    · intro b hb
      simp [hzero b (.inr hb)]
  · intro hzero b hb
    cases hb with
    | inl hb => simpa using hzero.1 b hb
    | inr hb => simpa using hzero.2 b hb

/-- Framing is decided for every size: it is accepted, or refused with a message. -/
theorem framing_decided (archive : Slice) (fileSize : UInt64) :
    (Framed archive.bytes fileSize.toNat ∧
        validateStrictTarFraming archive fileSize = some (.ok ())) ∨
      ¬ Framed archive.bytes fileSize.toNat ∧
        ∃ error, validateStrictTarFraming archive fileSize = some (.error error) := by
  have hsize : fileSize.toNat ≤ roundUp fileSize.toNat := by
    unfold roundUp
    omega
  unfold validateStrictTarFraming
  match hbounds : framingBounds fileSize with
  | none => exact absurd hbounds (framingBounds_total fileSize)
  | some none =>
    have hover := framingBounds_none hbounds
    have hlen := archive.length_lt
    refine .inr ⟨?_, _, rfl⟩
    intro h
    have hroom := h.room
    omega
  | some (some (contentEnd, paddingEnd, terminationEnd)) =>
    obtain ⟨hcontent, hpadding, htermination⟩ := framingBounds_some hbounds
    have hmod : archive.len % TAR_BLOCK_BYTES = 0 ↔ archive.bytes.length % 512 = 0 := by
      rw [← UInt64.toNat_inj, UInt64.toNat_mod, Slice.toNat_len, toNat_block]
      rfl
    have hshort : archive.len < terminationEnd ↔
        archive.bytes.length < 512 + roundUp fileSize.toNat + 1024 := by
      rw [UInt64.lt_iff_toNat_lt, Slice.toNat_len, htermination]
    simp only [hshort, ne_eq, hmod]
    by_cases hframe : archive.bytes.length < 512 + roundUp fileSize.toNat + 1024 ∨
        ¬ archive.bytes.length % 512 = 0
    · rw [if_pos hframe]
      refine .inr ⟨?_, _, rfl⟩
      intro h
      have hroom := h.room
      have hblocks := h.blocks
      omega
    · rw [if_neg hframe]
      have hlen := archive.toNat_len
      rw [Slice.range_eq (by omega) (by omega), Slice.range_eq (by omega) (by omega)]
      simp only [hlen]
      have hzero := @zeroes_split archive.bytes (512 + fileSize.toNat) paddingEnd.toNat (by omega)
        (by omega)
      rw [← hcontent] at hzero
      cases hpad : ((archive.bytes.take paddingEnd.toNat).drop contentEnd.toNat).any (· ≠ 0) with
      | true =>
        refine .inr ⟨?_, _, rfl⟩
        intro h
        have hnone := (hzero.mp (hcontent ▸ h.zeroes)).1
        rw [hpad] at hnone
        cases hnone
      | false =>
        cases hend : ((archive.bytes.take archive.bytes.length).drop paddingEnd.toNat).any
            (· ≠ 0) with
        | true =>
          refine .inr ⟨?_, _, rfl⟩
          intro h
          have hnone := (hzero.mp (hcontent ▸ h.zeroes)).2
          rw [hend] at hnone
          cases hnone
        | false =>
          have hroom : 512 + roundUp fileSize.toNat + 1024 ≤ archive.bytes.length := by omega
          have hblocks : archive.bytes.length % 512 = 0 := by omega
          exact .inl ⟨⟨hblocks, hroom, hcontent ▸ hzero.mpr ⟨hpad, hend⟩⟩, rfl⟩

theorem validateStrictTarFraming_iff :
    validateStrictTarFraming archive fileSize = some (.ok ()) ↔
      Framed archive.bytes fileSize.toNat := by
  obtain ⟨hframed, haccepted⟩ | ⟨hframed, error, hrefused⟩ := framing_decided archive fileSize
  · simp [hframed, haccepted]
  · simp [hframed, hrefused]

theorem validateStrictTarFraming_total : validateStrictTarFraming archive fileSize ≠ none := by
  obtain ⟨_, haccepted⟩ | ⟨_, error, hrefused⟩ := framing_decided archive fileSize
  · simp [haccepted]
  · simp [hrefused]

end Framing

section Decode
variable {tar : TarLib} {archive : Slice} {basename contents : Bytes} {size maxBytes : UInt64}

/-- What the tar library promises of the first entry of an archive: at most so many bytes of it
are those behind the header block, as many as its header says. -/
def ReadsFirst (tar : TarLib) : Prop :=
  ∀ (archive : Bytes) (first : TarEntry) (rest : List (Option TarEntry)),
    tar.entries archive = some (some first :: rest) →
      ∀ size limit bytes, first.entrySize = some size → first.read limit = some bytes →
        bytes = (archive.drop 512).take (min limit.toNat size.toNat)

theorem readEntry_ok {first : TarEntry} (h : readEntry first basename size = .ok contents) :
    first.isFile = true ∧ first.pathBytes = basename ∧ first.entrySize = some size ∧
      first.read (saturatingAdd size 1) = some contents ∧ contents.length = size.toNat := by
  unfold readEntry at h
  split_ifs at h with hfile hpath
  split at h
  · cases h
  · rename_i declared hdeclared
    split_ifs at h with hsize
    split at h
    · cases h
    · rename_i found hfound
      split_ifs at h with hlength
      cases h
      refine ⟨by simpa using hfile, by simpa using hpath, ?_, hfound, by simpa using hlength⟩
      rw [hdeclared, not_not.mp hsize]

/-- Only an archive with that file for its one entry is read. -/
theorem readSingleEntry_ok {entries : List (Option TarEntry)}
    (h : readSingleEntry entries basename size = .ok contents) :
    ∃ first, entries = [some first] ∧ readEntry first basename size = .ok contents := by
  unfold readSingleEntry at h
  split at h
  · cases h
  · cases h
  · rename_i first rest
    split at h
    · cases h
    · rename_i found hfound
      split at h
      · cases h
        exact ⟨first, rfl, hfound⟩
      · cases h
      · cases h

theorem decodeSingleFileArchive_ok :
    decodeSingleFileArchive tar archive basename size maxBytes = some (.ok contents) ↔
      size ≤ maxBytes ∧ Framed archive.bytes size.toNat ∧
        ∃ first, tar.entries archive.bytes = some [some first] ∧
          readEntry first basename size = .ok contents := by
  constructor
  · intro h
    unfold decodeSingleFileArchive at h
    split_ifs at h with hlimit
    · cases h
    · split at h
      · cases h
      · cases h
      · rename_i hframed
        split at h
        · cases h
        · rename_i entries hentries
          obtain ⟨first, rfl, hfirst⟩ := readSingleEntry_ok (Option.some.inj h)
          exact ⟨UInt64.not_lt.mp hlimit, validateStrictTarFraming_iff.mp hframed, first, hentries,
            hfirst⟩
  · intro h
    obtain ⟨hlimit, hframed, first, hentries, hfirst⟩ := h
    rw [decodeSingleFileArchive, if_neg (UInt64.not_lt.mpr hlimit),
      validateStrictTarFraming_iff.mpr hframed]
    simp [hentries, readSingleEntry, hfirst]

theorem decodeSingleFileArchive_total :
    decodeSingleFileArchive tar archive basename size maxBytes ≠ none := by
  unfold decodeSingleFileArchive
  split_ifs with hlimit
  · simp
  · cases hframing : validateStrictTarFraming archive size with
    | none => exact absurd hframing validateStrictTarFraming_total
    | some framing =>
      cases framing with
      | error error => simp
      | ok _ => cases tar.entries archive.bytes <;> simp

theorem decoded_contents (htar : ReadsFirst tar)
    (h : decodeSingleFileArchive tar archive basename size maxBytes = some (.ok contents)) :
    contents = (archive.bytes.drop 512).take size.toNat := by
  obtain ⟨_, _, first, hentries, hfirst⟩ := decodeSingleFileArchive_ok.mp h
  obtain ⟨_, _, hsize, hread, hlength⟩ := readEntry_ok hfirst
  have hfront := htar archive.bytes first [] hentries size _ contents hsize hread
  rw [hfront, List.take_eq_take_iff]
  rw [hfront, List.length_take] at hlength
  omega

end Decode

/-- Framing is exact and never panics, and a decoded file is the stretch behind the header. -/
theorem strict_single_file_archive (tar : TarLib) (htar : ReadsFirst tar) :
    (∀ (archive : Slice) (fileSize : UInt64),
      validateStrictTarFraming archive fileSize ≠ none ∧
        (validateStrictTarFraming archive fileSize = some (.ok ()) ↔
          archive.bytes.length % 512 = 0 ∧
            512 + roundUp fileSize.toNat + 1024 ≤ archive.bytes.length ∧
            ∀ b ∈ archive.bytes.drop (512 + fileSize.toNat), b = 0)) ∧
    ∀ (archive : Slice) (basename : Bytes) (size maxBytes : UInt64),
      decodeSingleFileArchive tar archive basename size maxBytes ≠ none ∧
      ∀ contents,
        decodeSingleFileArchive tar archive basename size maxBytes = some (.ok contents) →
          contents = (archive.bytes.drop 512).take size.toNat ∧
            contents.length = size.toNat ∧ 512 + size.toNat ≤ archive.bytes.length ∧
            size ≤ maxBytes := by
  constructor
  · intro archive fileSize
    refine ⟨validateStrictTarFraming_total, ?_⟩
    rw [validateStrictTarFraming_iff]
    constructor
    · intro h
      exact ⟨h.blocks, h.room, h.zeroes⟩
    · intro h
      exact ⟨h.1, h.2.1, h.2.2⟩
  · intro archive basename size maxBytes
    refine ⟨decodeSingleFileArchive_total, ?_⟩
    intro contents h
    obtain ⟨hlimit, hframed, first, _, hfirst⟩ := decodeSingleFileArchive_ok.mp h
    obtain ⟨_, _, _, _, hlength⟩ := readEntry_ok hfirst
    have hsize : size.toNat ≤ roundUp size.toNat := by
      unfold roundUp
      omega
    have hroom := hframed.room
    exact ⟨decoded_contents htar h, hlength, by omega, hlimit⟩

section Example

def octal (digits : Bytes) : Nat := digits.foldl (fun n digit => n * 8 + (digit.toNat - 0x30)) 0

def ustarEntry (archive : Bytes) : TarEntry :=
  let size := UInt64.ofNat (octal ((archive.drop 124).take 11))
  { isFile := (archive.drop 156).take 1 == [0x30]
    pathBytes := (archive.take 100).takeWhile (· ≠ 0)
    entrySize := some size
    read := fun limit => some ((archive.drop 512).take (min limit.toNat size.toNat)) }

/-- A tar library for archives of one file with a sound header. -/
def ustarLib : TarLib where
  entries archive := if archive.length < 512 then some [] else some [some (ustarEntry archive)]

theorem ustarLib_entries {archive : Bytes} (h : 512 ≤ archive.length) :
    ustarLib.entries archive = some [some (ustarEntry archive)] :=
  if_neg (Nat.not_lt.mpr h)

theorem ustarLib_reads : ReadsFirst ustarLib := by
  intro archive first rest hentries size limit bytes hsize hread
  simp only [ustarLib] at hentries
  split_ifs at hentries
  · cases hentries
  · cases hentries
    cases hsize
    cases hread
    rfl

/-- A header block: name, mode and owners, size, time and checksum, type, and the rest of it. -/
def certificateName : Bytes := ascii "tls.cert" ++ List.replicate 92 0
def certificateMode : Bytes := ascii "0000644" ++ List.replicate 17 0
def certificateSize : Bytes := ascii "00000000013"
def certificateSum : Bytes := List.replicate 13 0 ++ ascii "003721" ++ [0, 0x20]

def certificateBlocks : Bytes :=
  certificateName ++ (certificateMode ++ (certificateSize ++ (certificateSum ++
    ([0x30] ++ (List.replicate 355 0 ++ (ascii "certificate" ++ List.replicate 1525 0))))))

theorem length_certificateName : certificateName.length = 100 := by
  rw [certificateName, List.length_append, List.length_replicate]
  rfl

theorem length_certificateMode : certificateMode.length = 24 := by
  rw [certificateMode, List.length_append, List.length_replicate]
  rfl

theorem length_certificateSum : certificateSum.length = 21 := by
  rw [certificateSum, List.length_append, List.length_append, List.length_replicate]
  rfl

theorem length_certificateSize : certificateSize.length = 11 := rfl

theorem length_certificate : (ascii "certificate").length = 11 := rfl

theorem certificateBlocks_drop :
    certificateBlocks.drop 124 = certificateSize ++ (certificateSum ++
        ([0x30] ++ (List.replicate 355 0 ++ (ascii "certificate" ++ List.replicate 1525 0)))) ∧
      certificateBlocks.drop 156 =
        [0x30] ++ (List.replicate 355 0 ++ (ascii "certificate" ++ List.replicate 1525 0)) ∧
      certificateBlocks.drop 512 = ascii "certificate" ++ List.replicate 1525 0 ∧
      certificateBlocks.drop 523 = List.replicate 1525 0 := by
  have hsize : certificateBlocks.drop 124 = certificateSize ++ (certificateSum ++
      ([0x30] ++ (List.replicate 355 0 ++ (ascii "certificate" ++ List.replicate 1525 0)))) := by
    rw [show 124 = 100 + 24 from rfl, ← List.drop_drop, certificateBlocks,
      List.drop_left' length_certificateName, List.drop_left' length_certificateMode]
  have htype : certificateBlocks.drop 156 =
      [0x30] ++ (List.replicate 355 0 ++ (ascii "certificate" ++ List.replicate 1525 0)) := by
    rw [show 156 = 124 + (11 + 21) from rfl, ← List.drop_drop, hsize, ← List.drop_drop,
      List.drop_left' length_certificateSize, List.drop_left' length_certificateSum]
  have hcontents : certificateBlocks.drop 512 = ascii "certificate" ++ List.replicate 1525 0 := by
    rw [show 512 = 156 + (1 + 355) from rfl, ← List.drop_drop, htype, ← List.drop_drop,
      List.drop_left' List.length_singleton, List.drop_left' List.length_replicate]
  refine ⟨hsize, htype, hcontents, ?_⟩
  rw [show 523 = 512 + 11 from rfl, ← List.drop_drop, hcontents,
    List.drop_left' length_certificate]

theorem length_certificateBlocks : certificateBlocks.length = 2048 := by
  have hlength := congrArg List.length certificateBlocks_drop.2.2.2
  rw [List.length_drop, List.length_replicate] at hlength
  omega

def certificateArchive : Slice where
  bytes := certificateBlocks
  length_lt := by
    rw [length_certificateBlocks]
    omega

theorem certificateBlocks_framed : Framed certificateBlocks 11 := by
  refine ⟨by rw [length_certificateBlocks], by rw [length_certificateBlocks]; decide, ?_⟩
  rw [certificateBlocks_drop.2.2.2]
  intro b hb
  exact List.eq_of_mem_replicate hb

theorem certificateBlocks_entry :
    readEntry (ustarEntry certificateBlocks) (ascii "tls.cert") 11 =
      .ok (ascii "certificate") := by
  obtain ⟨hsize, htype, hcontents, _⟩ := certificateBlocks_drop
  have hname : (certificateBlocks.take 100).takeWhile (· ≠ 0) = ascii "tls.cert" := by
    rw [certificateBlocks, List.take_left' length_certificateName]
    rfl
  have hoctal : UInt64.ofNat (octal ((certificateBlocks.drop 124).take 11)) = 11 := by
    rw [hsize, List.take_left' length_certificateSize]
    rfl
  have hread : (certificateBlocks.drop 512).take 11 = ascii "certificate" := by
    rw [hcontents, List.take_left' length_certificate]
  have hlimit : min (saturatingAdd 11 1).toNat (11 : UInt64).toNat = 11 := by decide
  simp only [readEntry, ustarEntry, hname, hoctal, hlimit, hread]
  rw [htype]
  rfl

/-- A certificate is read out of the archive that holds it. -/
theorem strict_single_file_archive_certificate :
    decodeSingleFileArchive ustarLib certificateArchive (ascii "tls.cert") 11 1048576 =
        some (.ok (ascii "certificate")) ∧
      ascii "certificate" = (certificateBlocks.drop 512).take 11 := by
  have hdecoded : decodeSingleFileArchive ustarLib certificateArchive (ascii "tls.cert") 11
      1048576 = some (.ok (ascii "certificate")) := by
    refine decodeSingleFileArchive_ok.mpr ⟨by decide, certificateBlocks_framed,
      ustarEntry certificateBlocks, ?_, certificateBlocks_entry⟩
    apply ustarLib_entries
    rw [certificateArchive, length_certificateBlocks]
    omega
  refine ⟨hdecoded, ?_⟩
  exact (((strict_single_file_archive ustarLib ustarLib_reads).2 certificateArchive _ _ _).2 _
    hdecoded).1

end Example

end Nigiri.Fixtures
