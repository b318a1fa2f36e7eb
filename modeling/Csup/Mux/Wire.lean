import Csup.Mux.Defs

/-!
# Packets on the wire

`decode_encode`: the receiver reads the header that was written, and leaves what
is behind it.
-/

namespace Csup.Mux

/-- The numbers of a header fit their fields. -/
def Header.Fits : Header → Prop
  | connect _ mss w => mss < 65536 ∧ w < 4294967296
  | accept _ mss w => mss < 65536 ∧ w < 4294967296
  | data _ len => len < 65536
  | window _ w => w < 4294967296
  | _ => True

theorem ntohs_htons {n : Nat} (h : n < 65536) : ntohs (n / 256).toUInt8 n.toUInt8 = n := by
  have h1 : (n / 256).toUInt8.toNat = n / 256 % 256 := rfl
  have h0 : n.toUInt8.toNat = n % 256 := rfl
  unfold ntohs
  omega

theorem ntohs_mod (n : Nat) : ntohs (n / 256).toUInt8 n.toUInt8 = n % 65536 := by
  have h1 : (n / 256).toUInt8.toNat = n / 256 % 256 := rfl
  have h0 : n.toUInt8.toNat = n % 256 := rfl
  unfold ntohs
  omega

theorem ntohl_htonl {n : Nat} (h : n < 4294967296) :
    ntohl (n / 65536 / 256).toUInt8 (n / 65536).toUInt8 (n / 256).toUInt8 n.toUInt8 = n := by
  unfold ntohl
  rw [ntohs_htons (by omega), ntohs_mod]
  omega

/-- The header in front is read. -/
theorem decode_encode {h : Header} (hf : h.Fits) (rest : List Byte) :
    decode (h.encode ++ rest) = .header h rest := by
  cases h with
  | connect id mss w => simp [decode, Header.encode, htons, htonl, ntohs_htons hf.1, ntohl_htonl hf.2]
  | accept id mss w => simp [decode, Header.encode, htons, htonl, ntohs_htons hf.1, ntohl_htonl hf.2]
  | reset id => rfl
  | data id len => simp [decode, Header.encode, htons, ntohs_htons hf]
  | window id w => simp [decode, Header.encode, htons, htonl, ntohl_htonl hf]
  | close id => rfl

/-- The length of the data behind a header. -/
def Header.datalen : Header → Nat
  | data _ len => len
  | _ => 0

/-- What the packets of a link look like. -/
structure Packet.Ok (p : Packet) : Prop where
  fits : p.header.Fits
  payload : p.payload.length = p.header.datalen

theorem decode_wire {p : Packet} (h : p.Ok) (rest : List Byte) :
    decode (p.wire ++ rest) = .header p.header (p.payload ++ rest) := by
  rw [Packet.wire, List.append_assoc, decode_encode h.fits]

end Csup.Mux
