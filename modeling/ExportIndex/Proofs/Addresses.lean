import ExportIndex.Changes
import ExportIndex.Proofs.CanonicalPath

/-!
File addresses and the paths they stand for. A path can be written as an address
in many ways, since every byte of it may be escaped or left alone and a digit of
an escape may be of either case; only a percent sign has to be escaped. All of
them are read back as the path, whatever characters and names it has.
-/
namespace ExportIndex

namespace Percent

def percentSign : UInt8 := 37

def hexDigit (upper : Bool) (n : Nat) : UInt8 :=
  Utf8.byte (if n < 10 then 48 + n else if upper then 55 + n else 87 + n)

/-- How one byte stands in an address: as it is, or as an escape with two digits, the case of
each chosen freely. -/
inductive Style where
  | plain
  | escaped (upper upperAgain : Bool)
  deriving DecidableEq

def Style.write : Style → UInt8 → List UInt8
  | .plain, b => [b]
  | .escaped upper upperAgain, b =>
    [percentSign, hexDigit upper (b.toNat / 16), hexDigit upperAgain (b.toNat % 16)]

def Style.Suits (style : Style) (b : UInt8) : Prop := style = .plain → b ≠ percentSign

instance (style : Style) (b : UInt8) : Decidable (style.Suits b) :=
  inferInstanceAs (Decidable (_ → _))

/-- Whether `address` is `path` after the scheme, with every byte in a style that suits it. The
address is a text itself, so the bytes that it leaves alone are whole characters. -/
def Spells (path address : String) : Prop :=
  ∃ styled : List (Style × UInt8), (∀ sb ∈ styled, sb.1.Suits sb.2) ∧
    styled.map Prod.snd = Utf8.encodeAll path.toList ∧
    Utf8.encodeAll address.toList =
      Utf8.encodeAll scheme ++ styled.flatMap fun sb => sb.1.write sb.2

theorem hexValue_hexDigit (upper : Bool) {n : Nat} (small : n < 16) :
    hexValue (hexDigit upper n) = some n := by
  have value : (hexDigit upper n).toNat =
      if n < 10 then 48 + n else if upper then 55 + n else 87 + n := by
    apply Utf8.toNat_byte
    split
    · omega
    · split <;> omega
  simp only [hexValue, value]
  by_cases decimal : n < 10
  · simp only [decimal, ↓reduceIte]
    rw [if_pos (by omega), Nat.add_sub_cancel_left]
  · cases upper with
    | true =>
      simp only [decimal, ↓reduceIte]
      rw [if_neg (by omega), if_neg (by omega), if_pos (by omega), Nat.add_sub_cancel_left]
    | false =>
      simp only [decimal, Bool.false_eq_true, ↓reduceIte]
      rw [if_neg (by omega), if_pos (by omega), Nat.add_sub_cancel_left]

theorem unescape_cons_of_ne {b : UInt8} (ordinary : b ≠ percentSign) (rest : List UInt8) :
    unescape (b :: rest) = b :: unescape rest := by
  match rest with
  | [] => rfl
  | [_] => rfl
  | _ :: _ :: _ => exact if_neg ordinary

theorem unescape_write_append {style : Style} {b : UInt8} (suits : style.Suits b)
    (rest : List UInt8) : unescape (style.write b ++ rest) = b :: unescape rest := by
  cases style with
  | plain => exact unescape_cons_of_ne (suits rfl) rest
  | escaped upper upperAgain =>
    have bound : b.toNat < 256 := b.toNat_lt
    have first := hexValue_hexDigit upper (show b.toNat / 16 < 16 by omega)
    have second := hexValue_hexDigit upperAgain (show b.toNat % 16 < 16 by omega)
    have whole : Utf8.byte (b.toNat / 16 * 16 + b.toNat % 16) = b := by
      rw [Nat.div_add_mod', Utf8.byte, UInt8.ofNat_toNat]
    simp only [Style.write, percentSign, List.cons_append, List.nil_append, unescape, ↓reduceIte,
      first, second, whole]

theorem unescape_styled {styled : List (Style × UInt8)} (suits : ∀ sb ∈ styled, sb.1.Suits sb.2) :
    unescape (styled.flatMap fun sb => sb.1.write sb.2) = styled.map Prod.snd := by
  induction styled with
  | nil => rfl
  | cons sb styled ih =>
    rw [List.flatMap_cons, unescape_write_append (suits sb List.mem_cons_self),
      ih fun later held => suits later (List.mem_cons_of_mem sb held), List.map_cons]

theorem unescape_append_of_ordinary {bytes : List UInt8} (ordinary : ∀ b ∈ bytes, b ≠ percentSign)
    (rest : List UInt8) : unescape (bytes ++ rest) = bytes ++ unescape rest := by
  induction bytes with
  | nil => rfl
  | cons b bytes ih =>
    rw [List.cons_append, unescape_cons_of_ne (ordinary b List.mem_cons_self),
      ih fun c later => ordinary c (List.mem_cons_of_mem b later), List.cons_append]

theorem dropStart_append (start rest : List Char) : dropStart start (start ++ rest) = rest := by
  have begins : start.isPrefixOf (start ++ rest) = true :=
    List.isPrefixOf_iff_prefix.mpr (List.prefix_append start rest)
  rw [dropStart, if_pos begins, List.drop_left]

theorem Spells.pathOfAddress_eq {path address : String} (spelled : Spells path address) :
    pathOfAddress address = path := by
  obtain ⟨styled, suits, bytes, text⟩ := spelled
  have plainScheme : ∀ b ∈ Utf8.encodeAll scheme, b ≠ percentSign := by decide +kernel
  have joined : Utf8.encodeAll scheme ++ Utf8.encodeAll path.toList =
      Utf8.encodeAll (scheme ++ path.toList) := List.flatMap_append.symm
  have decoded : decode address = String.ofList (scheme ++ path.toList) := by
    rw [decode, text, unescape_append_of_ordinary plainScheme, unescape_styled suits, bytes,
      joined, Utf8.decode_encodeAll]
  rw [pathOfAddress, decoded, String.toList_ofList, dropStart_append, String.ofList_toList]

end Percent

namespace Changes

theorem map_locate {paths addresses : List String} (canonical : ∀ p ∈ paths, Path.IsCanonical p)
    (spelled : List.Forall₂ Percent.Spells paths addresses) (root : String) :
    addresses.map (locate root) = paths := by
  induction spelled with
  | nil => rfl
  | @cons p address paths addresses first _ ih =>
    have located : locate root address = p := by
      rw [locate, first.pathOfAddress_eq, (canonical p List.mem_cons_self).join_eq]
    rw [List.map_cons, located, ih fun q later => canonical q (List.mem_cons_of_mem p later)]

/-- Addresses come back as the paths they spell. Deleted files come back in order and as often as
they were reported; of the files to read, created before updated, only the first report of each
counts. -/
theorem addresses_name_paths {paths addresses : List String}
    (canonical : ∀ p ∈ paths, Path.IsCanonical p)
    (spelled : List.Forall₂ Percent.Spells paths addresses) (root : String) :
    (∀ c : Changes, c.deleted = addresses → c.gone root = paths) ∧
    ∀ c : Changes, c.created ++ c.updated = addresses → c.toRead root = paths.eraseDups := by
  have located := map_locate canonical spelled root
  constructor
  · rintro c rfl
    exact located
  · intro c reported
    rw [toRead, reported, located, Path.distinctFiles_of_canonical canonical]

section Sample

def reportedPaths : List String := ["/ws/a b.ts", "/ws/100%/é.ts", "/ws/a b.ts"]

def reportedAddresses : List String :=
  ["file:///ws/a%20b.ts", "file://%2Fws/100%25/%c3%A9.ts", "file:///ws/a b.ts"]

open Percent in
theorem reported_spelled : List.Forall₂ Spells reportedPaths reportedAddresses := by
  let plain (n : Nat) : List Style := List.replicate n .plain
  refine .cons ?_ (.cons ?_ (.cons ?_ .nil))
  · let styles := plain 5 ++ .escaped false false :: plain 4
    exact ⟨styles.zip (Utf8.encodeAll "/ws/a b.ts".toList), by decide +kernel, by decide +kernel,
      by decide +kernel⟩
  · let styles := .escaped true true :: plain 6 ++ .escaped true false :: plain 1 ++
      [.escaped false true, .escaped true false] ++ plain 3
    exact ⟨styles.zip (Utf8.encodeAll "/ws/100%/é.ts".toList), by decide +kernel,
      by decide +kernel, by decide +kernel⟩
  · exact ⟨(plain 10).zip (Utf8.encodeAll "/ws/a b.ts".toList), by decide +kernel,
      by decide +kernel, by decide +kernel⟩

theorem reported_name_paths :
    (Changes.mk [] [] reportedAddresses).gone "/ws" =
      ["/ws/a b.ts", "/ws/100%/é.ts", "/ws/a b.ts"] ∧
    (Changes.mk (reportedAddresses.take 1) (reportedAddresses.drop 1) []).toRead "/ws" =
      ["/ws/a b.ts", "/ws/100%/é.ts"] := by
  have below : reportedPaths = ["a b.ts", "100%/é.ts", "a b.ts"].map (Path.join "/ws") := by
    decide +kernel
  have canonical : ∀ p ∈ reportedPaths, Path.IsCanonical p := by
    rw [below]
    exact List.forall_mem_map.mpr fun name _ => Path.join_isCanonical (by decide +kernel) name
  obtain ⟨gone, read⟩ := addresses_name_paths canonical reported_spelled "/ws"
  have once : reportedPaths.eraseDups = ["/ws/a b.ts", "/ws/100%/é.ts"] := by decide +kernel
  exact ⟨gone _ rfl, (read _ rfl).trans once⟩

end Sample

end Changes

end ExportIndex
