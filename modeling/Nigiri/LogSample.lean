import Nigiri.LossyText
import Nigiri.JoinedDiagnostics

/-! Samples of a container's log, taken from the chunks it arrives in. -/
namespace Nigiri.Fixtures
open Utf8 AsciiCase

def MAX_LOG_SAMPLE_BYTES : Nat := 64 * 1024
def MAX_LOG_SAMPLE_CHUNKS : Nat := 1024

def truncated : Bytes :=
  ascii "\n[TRUNCATED: initial log sample only; later logs were not collected]"

/-- What is retained of a stream that ended, or when a budget was used up. -/
inductive Retained where
  | ended (bytes : Bytes)
  | cut (bytes : Bytes)
  deriving DecidableEq, Repr

variable {ε : Type*}

/-- The loop over the stream, with the turns it has left. -/
def retainChunks : Nat → Bytes → List (Except ε Bytes) → Except ε Retained
  | 0, bytes, _ => .ok (.cut bytes)
  | _ + 1, bytes, [] => .ok (.ended bytes)
  | _ + 1, _, .error error :: _ => .error error
  | turns + 1, bytes, .ok chunk :: stream =>
    let remaining := MAX_LOG_SAMPLE_BYTES - bytes.length
    let bytes := bytes ++ chunk.take (min chunk.length remaining)
    if bytes.length = MAX_LOG_SAMPLE_BYTES then .ok (.cut bytes)
    else retainChunks turns bytes stream

/-- The bytes up to the last line feed. -/
def wholeLines (bytes : Bytes) : Bytes := bytes.rdropWhile fun b => b ≠ 10

/-- The redacted tail of bytes read as text. -/
def sampleOf (bytes : Bytes) : Option Bytes := redactedTail (encode (fromUtf8Lossy bytes))

def collectLogSample (stream : List (Except ε Bytes)) : Option (Except ε Bytes) :=
  match retainChunks MAX_LOG_SAMPLE_CHUNKS [] stream with
  | .error error => some (.error error)
  | .ok (.ended bytes) => (sampleOf bytes).map .ok
  | .ok (.cut bytes) =>
    (sampleOf (wholeLines bytes)).map fun redacted => .ok (redacted ++ truncated)

/-- A stream of chunks without an error. -/
def delivered (ε : Type*) (chunks : List Bytes) : List (Except ε Bytes) := chunks.map .ok

/-- The lines of a text that end in it. -/
def WholeLines (text lines : Bytes) : Prop :=
  (lines = [] ∨ ∃ front, lines = front ++ [10]) ∧ ∃ rest, text = lines ++ rest ∧ 10 ∉ rest

theorem wholeLines_spec (text : Bytes) : WholeLines text (wholeLines text) := by
  refine ⟨?_, text.rtakeWhile fun b => b ≠ 10, ?_, ?_⟩
  · by_cases hempty : wholeLines text = []
    · exact .inl hempty
    · right
      have hlast := List.rdropWhile_last_not (fun b : UInt8 => b ≠ 10) text hempty
      have hten : (wholeLines text).getLast hempty = 10 := by
        rw [decide_eq_true_eq, not_not] at hlast
        exact hlast
      exact ⟨_, by rw [← hten, List.dropLast_append_getLast]⟩
  · exact List.rdropWhile_append_rtakeWhile.symm
  · intro hmem
    have hne := List.mem_rtakeWhile_imp hmem
    simp at hne

theorem wholeLines_eq {text lines : Bytes} (h : WholeLines text lines) :
    wholeLines text = lines := by
  obtain ⟨hlines, rest, rfl, hrest⟩ := h
  have hdrop : wholeLines (lines ++ rest) = wholeLines lines := by
    have hall : ∀ b ∈ rest.reverse, (decide (b ≠ 10)) = true := by
      intro b hb
      exact decide_eq_true fun heq => hrest (heq ▸ List.mem_reverse.mp hb)
    rw [wholeLines, wholeLines, List.rdropWhile, List.rdropWhile, List.reverse_append,
      List.dropWhile_append_of_pos hall]
  rw [hdrop]
  obtain rfl | ⟨front, rfl⟩ := hlines
  · rfl
  · exact List.rdropWhile_concat_neg _ _ _ (by simp)

theorem sampleOf_some (bytes : Bytes) : ∃ tail, sampleOf bytes = some tail := by
  rw [sampleOf, redactedTail_eq (isText_encode _)]
  exact utf8Tail_isSome _ _

/-- However the log is split, what the loop retains is a prefix of it, as long as the budgets
allow. -/
theorem retainChunks_ok (turns : Nat) (bytes : Bytes) (chunks : List Bytes)
    (hroom : bytes.length < MAX_LOG_SAMPLE_BYTES) :
    retainChunks turns bytes (delivered ε chunks) = .ok
      (if chunks.length < turns ∧ (bytes ++ chunks.flatten).length < MAX_LOG_SAMPLE_BYTES then
        .ended (bytes ++ chunks.flatten)
      else .cut ((bytes ++ (chunks.take turns).flatten).take MAX_LOG_SAMPLE_BYTES)) := by
  induction turns generalizing bytes chunks with
  | zero =>
    rw [if_neg fun h => absurd h.1 (Nat.not_lt_zero _), List.take_zero, List.flatten_nil,
      List.append_nil, List.take_of_length_le hroom.le]
    cases chunks <;> rfl
  | succ turns ih =>
    cases chunks with
    | nil =>
      rw [List.flatten_nil, List.append_nil, if_pos ⟨Nat.succ_pos turns, hroom⟩]
      rfl
    | cons chunk chunks =>
      rw [delivered, List.map_cons, retainChunks]
      change (if _ then _ else retainChunks turns _ (delivered ε chunks)) = _
      simp only [List.flatten_cons, List.take_succ_cons, List.length_cons, ← List.append_assoc]
      by_cases hfull : MAX_LOG_SAMPLE_BYTES - bytes.length ≤ chunk.length
      · -- the byte budget is used up by this chunk, at whatever place in it
        have htake : ∀ behind, (bytes ++ chunk ++ behind).take MAX_LOG_SAMPLE_BYTES =
            bytes ++ chunk.take (MAX_LOG_SAMPLE_BYTES - bytes.length) := by
          intro behind
          rw [List.append_assoc, List.take_append, List.take_of_length_le hroom.le,
            List.take_append_of_le_length hfull]
        have hlength : (bytes ++ chunk.take (MAX_LOG_SAMPLE_BYTES - bytes.length)).length =
            MAX_LOG_SAMPLE_BYTES := by
          rw [List.length_append, List.length_take]
          omega
        rw [Nat.min_eq_right hfull, if_pos hlength, htake, if_neg]
        intro h
        have hshort := h.2
        simp only [List.length_append] at hshort
        omega
      · have hroom' : (bytes ++ chunk).length < MAX_LOG_SAMPLE_BYTES := by
          rw [List.length_append]
          omega
        rw [Nat.min_eq_left (by omega), List.take_length, if_neg hroom'.ne,
          ih (bytes ++ chunk) chunks hroom']
        simp only [Nat.add_lt_add_iff_right]

section Sample
variable {chunks : List Bytes}

theorem collectLogSample_short (hcount : chunks.length < MAX_LOG_SAMPLE_CHUNKS)
    (hbytes : chunks.flatten.length < MAX_LOG_SAMPLE_BYTES) :
    collectLogSample (delivered ε chunks) =
      (sampleOf chunks.flatten).map .ok := by
  have hretained := @retainChunks_ok ε MAX_LOG_SAMPLE_CHUNKS [] chunks (by decide)
  rw [List.nil_append, if_pos ⟨hcount, hbytes⟩] at hretained
  rw [collectLogSample, hretained]

theorem collectLogSample_cut {lines : Bytes}
    (hcut : MAX_LOG_SAMPLE_CHUNKS ≤ chunks.length ∨ MAX_LOG_SAMPLE_BYTES ≤ chunks.flatten.length)
    (hlines : WholeLines
      ((chunks.take MAX_LOG_SAMPLE_CHUNKS).flatten.take MAX_LOG_SAMPLE_BYTES) lines) :
    collectLogSample (delivered ε chunks) =
      (sampleOf lines).map fun redacted => .ok (redacted ++ truncated) := by
  have hretained := @retainChunks_ok ε MAX_LOG_SAMPLE_CHUNKS [] chunks (by decide)
  rw [List.nil_append, List.nil_append, if_neg (by omega)] at hretained
  rw [collectLogSample, hretained]
  simp only [wholeLines_eq hlines]

end Sample

/-- The sample of a log does not depend on the chunks the log arrives in. -/
theorem log_sample_of_whole_lines (ε : Type*) (chunks : List Bytes) :
    (chunks.length < MAX_LOG_SAMPLE_CHUNKS → chunks.flatten.length < MAX_LOG_SAMPLE_BYTES →
      ∃ tail, sampleOf chunks.flatten = some tail ∧
        collectLogSample (delivered ε chunks) = some (.ok tail)) ∧
    (chunks.length < MAX_LOG_SAMPLE_CHUNKS → MAX_LOG_SAMPLE_BYTES ≤ chunks.flatten.length →
      ∃ lines tail, WholeLines (chunks.flatten.take MAX_LOG_SAMPLE_BYTES) lines ∧
        sampleOf lines = some tail ∧
        collectLogSample (delivered ε chunks) = some (.ok (tail ++ truncated))) ∧
    (∀ chunks' : List Bytes, chunks.length < MAX_LOG_SAMPLE_CHUNKS →
      chunks'.length < MAX_LOG_SAMPLE_CHUNKS → chunks.flatten = chunks'.flatten →
      collectLogSample (delivered ε chunks) = collectLogSample (delivered ε chunks')) ∧
    (∀ (chunks' : List Bytes) (lines : Bytes), chunks.length < MAX_LOG_SAMPLE_CHUNKS →
      chunks'.length < MAX_LOG_SAMPLE_CHUNKS → MAX_LOG_SAMPLE_BYTES ≤ chunks.flatten.length →
      MAX_LOG_SAMPLE_BYTES ≤ chunks'.flatten.length →
      WholeLines (chunks.flatten.take MAX_LOG_SAMPLE_BYTES) lines →
      WholeLines (chunks'.flatten.take MAX_LOG_SAMPLE_BYTES) lines →
      collectLogSample (delivered ε chunks) = collectLogSample (delivered ε chunks')) ∧
    (MAX_LOG_SAMPLE_CHUNKS ≤ chunks.length →
      ∃ front lines tail, front <+: chunks.flatten ∧ WholeLines front lines ∧
        sampleOf lines = some tail ∧
        collectLogSample (delivered ε chunks) = some (.ok (tail ++ truncated))) := by
  have all : ∀ {chunks : List Bytes}, chunks.length < MAX_LOG_SAMPLE_CHUNKS →
      (chunks.take MAX_LOG_SAMPLE_CHUNKS) = chunks := fun h => List.take_of_length_le h.le
  refine ⟨?_, ?_, ?_, ?_, ?_⟩
  · intro hcount hbytes
    obtain ⟨tail, htail⟩ := sampleOf_some chunks.flatten
    exact ⟨tail, htail, by rw [collectLogSample_short hcount hbytes, htail]; rfl⟩
  · intro hcount hbytes
    have hlines := wholeLines_spec (chunks.flatten.take MAX_LOG_SAMPLE_BYTES)
    obtain ⟨tail, htail⟩ := sampleOf_some (wholeLines (chunks.flatten.take MAX_LOG_SAMPLE_BYTES))
    refine ⟨_, tail, hlines, htail, ?_⟩
    rw [collectLogSample_cut (.inr hbytes) (by rw [all hcount]; exact hlines), htail]
    rfl
  · intro chunks' hcount hcount' hsame
    by_cases hbytes : chunks.flatten.length < MAX_LOG_SAMPLE_BYTES
    · rw [collectLogSample_short hcount hbytes, collectLogSample_short hcount' (hsame ▸ hbytes),
        hsame]
    · have hlines := wholeLines_spec (chunks.flatten.take MAX_LOG_SAMPLE_BYTES)
      have hbytes := Nat.le_of_not_lt hbytes
      rw [collectLogSample_cut (.inr hbytes) (by rw [all hcount]; exact hlines),
        collectLogSample_cut (.inr (hsame ▸ hbytes)) (by rw [all hcount', ← hsame]; exact hlines)]
  · intro chunks' lines hcount hcount' hbytes hbytes' hlines hlines'
    rw [collectLogSample_cut (.inr hbytes) (by rw [all hcount]; exact hlines),
      collectLogSample_cut (.inr hbytes') (by rw [all hcount']; exact hlines')]
  · intro hcount
    have hfront : (chunks.take MAX_LOG_SAMPLE_CHUNKS).flatten.take MAX_LOG_SAMPLE_BYTES <+:
        chunks.flatten := by
      refine (List.take_prefix _ _).trans ⟨(chunks.drop MAX_LOG_SAMPLE_CHUNKS).flatten, ?_⟩
      rw [← List.flatten_append, List.take_append_drop]
    have hlines := wholeLines_spec
      ((chunks.take MAX_LOG_SAMPLE_CHUNKS).flatten.take MAX_LOG_SAMPLE_BYTES)
    obtain ⟨tail, htail⟩ := sampleOf_some (wholeLines
      ((chunks.take MAX_LOG_SAMPLE_CHUNKS).flatten.take MAX_LOG_SAMPLE_BYTES))
    refine ⟨_, _, tail, hfront, hlines, htail, ?_⟩
    rw [collectLogSample_cut (.inl hcount) hlines, htail]
    rfl

theorem log_sample_of_split_character :
    collectLogSample (delivered Unit [[0xC3], [], [0xA9, 10]]) =
      collectLogSample (delivered Unit [[0xC3, 0xA9, 10]]) :=
  (log_sample_of_whole_lines Unit [[0xC3], [], [0xA9, 10]]).2.2.1 [[0xC3, 0xA9, 10]]
    (by decide) (by decide) rfl

end Nigiri.Fixtures
