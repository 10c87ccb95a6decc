import KeryxMiner.Format
import KeryxMiner.LineFile
import KeryxMiner.Escrow.Basic

/-!
# The text of a journal line

`lineFormat` is the JSON object which `serde_json` writes for a `JournalLine`, for texts that need
no escape (a transaction id or a block hash is hexadecimal).
-/

namespace KeryxMiner.Escrow

open Format

def outputIndexFormat : Format UInt32 :=
  (natUntil ',' printable_comma isDigit_comma).map UInt32.toNat
    (fun n => if n < 2 ^ 32 then some (UInt32.ofNat n) else none)
    (fun i => by simp [i.toNat_lt])
    (fun n i h => by
      split at h
      · next hn => cases h; simp; omega
      · cases h)

/-- The fields of an entry in the order of the source, with their labels. -/
def entryFields :=
  let num := natUntil ',' printable_comma isDigit_comma
  (text.before "\x7b\"coinbase_txid\":" (by decide)).seq <|
  (text.before ",\"block_hash\":" (by decide)).seq <|
  (num.before ",\"confirm_daa\":" (by decide)).seq <|
  (num.before "\"amount_sompi\":" (by decide)).seq <|
  (outputIndexFormat.before "\"output_index\":" (by decide)).seq <|
  (bool.before "\"claimed\":" (by decide)).seq <|
  (bool.before ",\"slashed\":" (by decide)).seq <|
  (bool.before ",\"orphan_slashed\":" (by decide)).seq <|
  (num.before ",\"orphan_retries\":" (by decide)).seq <|
  ((optNatUntil ',' printable_comma isDigit_comma).before "\"orphan_retry_after_daa\":"
    (by decide)).seq <|
  (num.before "\"submit_retries\":" (by decide)).seq <|
  (num.before "\"batch_cap\":" (by decide)).seq <|
  (num.before "\"cap_set_daa\":" (by decide)).seq <|
  (bool.before "\"is_inference\":" (by decide)).seq <|
  (natUntil '}' (by decide) rfl).before ",\"csv_window\":" (by decide)

def entryFormat : Format EscrowEntry :=
  entryFields.map
    (fun e => (e.coinbaseTxid, e.blockHash, e.confirmDaa, e.amountSompi, e.outputIndex, e.claimed,
      e.slashed, e.orphanSlashed, e.orphanRetries, e.orphanRetryAfterDaa, e.submitRetries,
      e.batchCap, e.capSetDaa, e.isInference, e.csvWindow))
    (fun (a, b, c, d, e, f, g, h, i, j, k, l, m, n, o) => some ⟨a, b, c, d, e, f, g, h, i, j, k, l, m, n, o⟩)
    (fun _ => rfl) (fun _ _ h => by cases h; rfl)

def lineFormat : Format JournalLine :=
  (((natUntil ',' printable_comma isDigit_comma).before "\x7b\"s\":" (by decide)).seq
    ((entryFormat.before "\"e\":" (by decide)).after "\x7d" (by decide))).map
    (fun l => (l.s, l.e)) (fun p => some ⟨p.1, p.2⟩) (fun _ => rfl) (fun _ _ h => by cases h; rfl)

def charByte (c : Char) : UInt8 := UInt8.ofNat c.toNat

def byteChar (b : UInt8) : Char := Char.ofNat b.toNat

theorem byteChar_charByte {c : Char} (h : Printable c) : byteChar (charByte c) = c := by
  have : c.toNat % 256 = c.toNat := Nat.mod_eq_of_lt (by have := h.2; omega)
  simp [byteChar, charByte, this]

/-- `serde_json::to_vec` of a journal line. -/
def encodeLine (l : JournalLine) : List UInt8 := (lineFormat.print l).map charByte

/-- `serde_json::from_str` of a journal line. -/
def decodeLine (bytes : List UInt8) : Option JournalLine :=
  match lineFormat.parse (bytes.map byteChar) with
  | some (l, []) => some l
  | _ => none

theorem encodeLine_chars (l : JournalLine) : (encodeLine l).map byteChar = lineFormat.print l := by
  rw [encodeLine, List.map_map]
  conv_rhs => rw [← List.map_id (lineFormat.print l)]
  exact List.map_congr_left fun c hc => byteChar_charByte (lineFormat.printable l c hc)

theorem decodeLine_encodeLine (l : JournalLine) : decodeLine (encodeLine l) = some l := by
  have := lineFormat.parse_print l []
  simp only [List.append_nil] at this
  simp [decodeLine, encodeLine_chars, this]

theorem encodeLine_printable (l : JournalLine) : ∀ b ∈ encodeLine l, 32 ≤ b := by
  intro b hb
  obtain ⟨c, hc, rfl⟩ := List.mem_map.mp hb
  have hp := lineFormat.printable l c hc
  have := hp.1; have := hp.2
  rw [UInt8.le_iff_toNat_le]
  simp only [charByte, UInt8.toNat_ofNat', UInt8.reduceToNat]
  omega

theorem encodeLine_ne_nil (l : JournalLine) : encodeLine l ≠ [] := fun h => by
  simp [encodeLine, lineFormat, map, seq, before] at h

/-- A line cut short is not read as another one. -/
theorem decodeLine_strict_prefix {bytes tail : List UInt8} {l : JournalLine} (htail : tail ≠ [])
    (h : bytes ++ tail = encodeLine l) : decodeLine bytes = none := by
  unfold decodeLine
  split
  · next l' hp =>
    have htail' : tail.map byteChar ≠ [] := by simpa using htail
    refine absurd hp (lineFormat.parse_strict_prefix (a := l) htail' ?_)
    rw [← List.map_append, h, encodeLine_chars]
  · rfl

/-- The lines of the journal. -/
def lineCodec : LineCodec JournalLine where
  encode := encodeLine
  decode := decodeLine
  encode_ne_nil := encodeLine_ne_nil
  decode_encode := decodeLine_encodeLine
  decode_strict_prefix _ _ _ := decodeLine_strict_prefix
  printable := encodeLine_printable

end KeryxMiner.Escrow
