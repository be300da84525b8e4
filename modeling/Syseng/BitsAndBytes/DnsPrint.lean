import Syseng.Support.Text

/-! `dns_print`, which prints the fields of a DNS header one to a line. -/

namespace Syseng.BitsAndBytes.Dns
open Support

structure DnsHeader where
  id : UInt16
  qr : Int32
  opcode : Int32
  aa : Int32
  tc : Int32
  rd : Int32
  ra : Int32
  z : Int32
  rcode : Int32
  qdcount : UInt16
  ancount : UInt16
  nscount : UInt16
  arcount : UInt16

def lines (hdr : DnsHeader) : List (List UInt8) :=
  [Text.ascii "DNS Header:",
    Text.ascii "  ID:      0x" ++ Text.hex 4 hdr.id.toNat,
    Text.ascii "  QR:      " ++ Text.decimal hdr.qr.toInt ++
      Text.ascii (if hdr.qr ≠ 0 then " (response)" else " (query)"),
    Text.ascii "  Opcode:  " ++ Text.decimal hdr.opcode.toInt,
    Text.ascii "  AA:      " ++ Text.decimal hdr.aa.toInt,
    Text.ascii "  TC:      " ++ Text.decimal hdr.tc.toInt,
    Text.ascii "  RD:      " ++ Text.decimal hdr.rd.toInt,
    Text.ascii "  RA:      " ++ Text.decimal hdr.ra.toInt,
    Text.ascii "  Z:       " ++ Text.decimal hdr.z.toInt,
    Text.ascii "  RCODE:   " ++ Text.decimal hdr.rcode.toInt,
    Text.ascii "  QDCOUNT: " ++ Text.decimal hdr.qdcount.toNat,
    Text.ascii "  ANCOUNT: " ++ Text.decimal hdr.ancount.toNat,
    Text.ascii "  NSCOUNT: " ++ Text.decimal hdr.nscount.toNat,
    Text.ascii "  ARCOUNT: " ++ Text.decimal hdr.arcount.toNat]

def dnsPrint (hdr : DnsHeader) : List UInt8 := (lines hdr).flatMap (· ++ [Text.byte '\n'])

theorem lines_clean (hdr : DnsHeader) : ∀ line ∈ lines hdr, Text.byte '\n' ∉ line := by
  have number : ∀ n : Int, Text.byte '\n' ∉ Text.decimal n := by
    intro n member
    exact absurd (Text.decimal_range member) (by decide)
  have hex : Text.byte '\n' ∉ Text.hex 4 hdr.id.toNat := by
    intro member
    exact absurd (Text.hex_mem member) (by decide)
  have kind : Text.byte '\n' ∉ Text.ascii (if hdr.qr ≠ 0 then " (response)" else " (query)") := by
    split <;> decide
  simp only [lines, List.forall_mem_cons, List.mem_append, not_or, number, hex, kind, not_false_eq_true,
    and_true, List.not_mem_nil, false_implies, implies_true]
  decide

theorem qr_injective {hdr hdr' : DnsHeader}
    (same : Text.decimal hdr.qr.toInt ++ Text.ascii (if hdr.qr ≠ 0 then " (response)" else " (query)") =
      Text.decimal hdr'.qr.toInt ++ Text.ascii (if hdr'.qr ≠ 0 then " (response)" else " (query)")) :
    hdr.qr = hdr'.qr := by
  have blank : ∀ n : Int, Text.byte ' ' ∉ Text.decimal n := by
    intro n member
    exact absurd (Text.decimal_range member) (by decide)
  have kind : ∀ h : DnsHeader, ∃ rest,
      Text.ascii (if h.qr ≠ 0 then " (response)" else " (query)") = Text.byte ' ' :: rest := by
    intro h
    split
    · exact ⟨_, rfl⟩
    · exact ⟨_, rfl⟩
  obtain ⟨rest, here⟩ := kind hdr
  obtain ⟨rest', there⟩ := kind hdr'
  rw [here, there] at same
  have decimals := (Text.split_first (blank _) (blank _) same).1
  exact Int32.toInt_inj.mp (Text.decimal_injective decimals)

theorem int_injective {label : List UInt8} {x y : Int32}
    (same : label ++ Text.decimal x.toInt = label ++ Text.decimal y.toInt) : x = y :=
  Int32.toInt_inj.mp (Text.decimal_injective (List.append_cancel_left same))

theorem count_injective {label : List UInt8} {x y : UInt16}
    (same : label ++ Text.decimal x.toNat = label ++ Text.decimal y.toNat) : x = y :=
  UInt16.toNat_inj.mp (Int.ofNat.inj (Text.decimal_injective (List.append_cancel_left same)))

theorem lines_injective {hdr hdr' : DnsHeader} (same : lines hdr = lines hdr') : hdr = hdr' := by
  simp only [lines, List.cons.injEq, List.append_assoc, true_and, and_true] at same
  obtain ⟨id, qr, opcode, aa, tc, rd, ra, z, rcode, qdcount, ancount, nscount, arcount⟩ := same
  have ids := Text.hex_injective hdr.id.toNat_lt hdr'.id.toNat_lt (List.append_cancel_left id)
  cases hdr
  cases hdr'
  simp only [DnsHeader.mk.injEq]
  exact ⟨UInt16.toNat_inj.mp ids, qr_injective (List.append_cancel_left qr), int_injective opcode,
    int_injective aa, int_injective tc, int_injective rd, int_injective ra, int_injective z,
    int_injective rcode, count_injective qdcount, count_injective ancount, count_injective nscount,
    count_injective arcount⟩

/-- Two headers that print the same are the same, also where a field holds what no header on the wire can. -/
theorem dns_print_injective : Function.Injective dnsPrint := by
  intro hdr hdr' same
  exact lines_injective (Text.records_injective (lines_clean hdr) (lines_clean hdr') same)

end Syseng.BitsAndBytes.Dns
