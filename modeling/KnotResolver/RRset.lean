import Mathlib
import KnotResolver.Dname

/-!
# Resource records and ranked record arrays

An RRset is an owner, a type, a class, a TTL and a non-empty list of RDATA. RDATA is kept
in the parsed form the modelled code reads through libknot's accessors (`knot_nsec_next`,
`knot_rrsig_signer_name`, ...), and every RDATA fits the type of its RRset, so that an
accessor of the wrong type is never applied. NSEC and NSEC3 type bitmaps are kept as the
list of types they contain; `dnssec_nsec_bitmap_contains` is membership.

Ranks are the octets of `enum kr_rank` with the independent `KR_RANK_AUTH` flag, tested as
`kr_rank_test` of `lib/resolve.c` does. Return codes are the `int`s of the C code.
-/

namespace KnotResolver

/-- An RR type code. -/
abbrev RRType := UInt16

namespace RRType

def a : RRType := 1
def ns : RRType := 2
def cname : RRType := 5
def soa : RRType := 6
def null : RRType := 10
def aaaa : RRType := 28
def dname : RRType := 39
def ds : RRType := 43
def rrsig : RRType := 46
def nsec : RRType := 47
def dnskey : RRType := 48
def nsec3 : RRType := 50

end RRType

/-- The class code of `IN`. -/
def classIn : UInt16 := 1

/-- RDATA in the form the resolver reads it. -/
inductive Rdata
  | nsec (next : Dname) (bitmap : List RRType)
  | nsec3 (algorithm flags : UInt8) (iterations : UInt16) (salt nextHash : List UInt8)
      (bitmap : List RRType)
  | rrsig (typeCovered : RRType) (algorithm labels : UInt8)
      (originalTtl expiration inception : UInt32) (keyTag : UInt16) (signer : Dname)
      (signature : List UInt8)
  | dnskey (flags : UInt16) (protocol algorithm : UInt8) (publicKey : List UInt8)
  | ds (keyTag : UInt16) (algorithm digestType : UInt8) (digest : List UInt8)
  | name (target : Dname)
  | raw (data : List UInt8)
  deriving DecidableEq

namespace Rdata

/-- The RDATA has the layout of RR type `t`: NS, CNAME and DNAME hold a single name. -/
def Fits : Rdata → RRType → Prop
  | nsec .., t => t = RRType.nsec
  | nsec3 .., t => t = RRType.nsec3
  | rrsig .., t => t = RRType.rrsig
  | dnskey .., t => t = RRType.dnskey
  | ds .., t => t = RRType.ds
  | name _, t => t = RRType.ns ∨ t = RRType.cname ∨ t = RRType.dname
  | raw _, t => t ∉ [RRType.nsec, RRType.nsec3, RRType.rrsig, RRType.dnskey, RRType.ds,
      RRType.ns, RRType.cname, RRType.dname]

instance (r : Rdata) (t : RRType) : Decidable (r.Fits t) := by
  cases r <;> unfold Fits <;> infer_instance

end Rdata

/-- An RRset: an owner, type, class and TTL with at least one RDATA of that type. -/
structure RRset where
  owner : Dname
  type : RRType
  rclass : UInt16
  ttl : UInt32
  rdata : List Rdata
  rdata_ne_nil : rdata ≠ []
  rdata_fit : ∀ r ∈ rdata, r.Fits type

namespace RRset

/-- The first RDATA, where libknot's accessors look (`rrs.rdata`). -/
def first (rr : RRset) : Rdata := rr.rdata.head rr.rdata_ne_nil

theorem first_fits (rr : RRset) : rr.first.Fits rr.type :=
  rr.rdata_fit _ (List.head_mem rr.rdata_ne_nil)

end RRset

/-- `knot_nsec_next`: the next owner name of the first NSEC RDATA. -/
def knotNsecNext (rr : RRset) : Dname :=
  match rr.first with
  | .nsec next _ => next
  | _ => Dname.root

/-- `knot_nsec_bitmap` (or `knot_nsec3_bitmap`): the types of the first RDATA. -/
def knotNsecBitmap (rr : RRset) : List RRType :=
  match rr.first with
  | .nsec _ bm => bm
  | .nsec3 _ _ _ _ _ bm => bm
  | _ => []

/-- The NSEC3 fields of the first RDATA, as `knot_nsec3_flags`, `knot_nsec3_iters`,
`knot_nsec3_salt` and `knot_nsec3_next` read them. -/
def knotNsec3Algorithm (rr : RRset) : UInt8 :=
  match rr.first with
  | .nsec3 alg .. => alg
  | _ => 0

def knotNsec3Flags (rr : RRset) : UInt8 :=
  match rr.first with
  | .nsec3 _ flags .. => flags
  | _ => 0

def knotNsec3Iters (rr : RRset) : UInt16 :=
  match rr.first with
  | .nsec3 _ _ iters .. => iters
  | _ => 0

def knotNsec3Salt (rr : RRset) : List UInt8 :=
  match rr.first with
  | .nsec3 _ _ _ salt .. => salt
  | _ => []

def knotNsec3Next (rr : RRset) : List UInt8 :=
  match rr.first with
  | .nsec3 _ _ _ _ next _ => next
  | _ => []

/-- The RRSIG fields of one RDATA, as `knot_rrsig_*` read them. -/
def knotRrsigTypeCovered : Rdata → RRType
  | .rrsig t .. => t
  | _ => 0

def knotRrsigAlg : Rdata → UInt8
  | .rrsig _ alg .. => alg
  | _ => 0

def knotRrsigLabels : Rdata → UInt8
  | .rrsig _ _ labels .. => labels
  | _ => 0

def knotRrsigOriginalTtl : Rdata → UInt32
  | .rrsig _ _ _ ttl .. => ttl
  | _ => 0

def knotRrsigSigExpiration : Rdata → UInt32
  | .rrsig _ _ _ _ expiration .. => expiration
  | _ => 0

def knotRrsigSigInception : Rdata → UInt32
  | .rrsig _ _ _ _ _ inception .. => inception
  | _ => 0

def knotRrsigKeyTag : Rdata → UInt16
  | .rrsig _ _ _ _ _ _ tag .. => tag
  | _ => 0

def knotRrsigSignerName : Rdata → Dname
  | .rrsig _ _ _ _ _ _ _ signer _ => signer
  | _ => Dname.root

def knotRrsigSignature : Rdata → List UInt8
  | .rrsig _ _ _ _ _ _ _ _ signature => signature
  | _ => []

/-- The DNSKEY fields of one RDATA. -/
def knotDnskeyFlags : Rdata → UInt16
  | .dnskey flags .. => flags
  | _ => 0

def knotDnskeyAlg : Rdata → UInt8
  | .dnskey _ _ alg _ => alg
  | _ => 0

/-- `knot_ds_digest_type`. -/
def knotDsDigestType : Rdata → UInt8
  | .ds _ _ digestType _ => digestType
  | _ => 0

/-- `knot_cname_name` and `knot_dname_target` of the first RDATA: the single name a CNAME or
DNAME record holds. -/
def knotCnameName (rr : RRset) : Dname :=
  match rr.first with
  | .name target => target
  | _ => Dname.root

def knotDnameTarget (rr : RRset) : Dname := knotCnameName rr

/-- `dnssec_nsec_bitmap_contains`. -/
def dnssecNsecBitmapContains (bm : List RRType) (t : RRType) : Bool := bm.contains t

@[simp] theorem dnssecNsecBitmapContains_iff {bm : List RRType} {t : RRType} :
    dnssecNsecBitmapContains bm t = true ↔ t ∈ bm := by
  simp [dnssecNsecBitmapContains]

@[simp] theorem dnssecNsecBitmapContains_eq_false_iff {bm : List RRType} {t : RRType} :
    dnssecNsecBitmapContains bm t = false ↔ t ∉ bm := by
  rw [← Bool.not_eq_true, dnssecNsecBitmapContains_iff]

/-! ## Ranks -/

namespace Rank

def initial : UInt8 := 0
def omit_ : UInt8 := 1
def try_ : UInt8 := 2
def indet : UInt8 := 4
def bogus : UInt8 := 5
def mismatch : UInt8 := 6
def missing : UInt8 := 7
def insecure : UInt8 := 8
def auth : UInt8 := 16
def secure : UInt8 := 32

end Rank

/-- `kr_rank_check`: the rank without `KR_RANK_AUTH` is one of the values of the enum. -/
def krRankCheck (rank : UInt8) : Bool :=
  (rank &&& ~~~Rank.auth) ∈ [Rank.initial, Rank.omit_, Rank.try_, Rank.indet, Rank.bogus,
    Rank.mismatch, Rank.missing, Rank.insecure, Rank.secure]

/-- `kr_rank_test`: presence of the flag `KR_RANK_AUTH`, or equality of the exclusive part. -/
def krRankTest (rank flag : UInt8) : Bool :=
  if !(krRankCheck rank && krRankCheck flag) then false
  else if flag = Rank.auth then rank &&& Rank.auth != 0
  else if flag &&& Rank.auth != 0 then false
  else (rank &&& ~~~Rank.auth) == flag

/-- `kr_rank_set`: replace the exclusive part, keep `KR_RANK_AUTH`. -/
def krRankSet (rank flag : UInt8) : UInt8 :=
  if !(krRankCheck rank) || !(krRankCheck flag) || flag &&& Rank.auth != 0 then rank
  else flag ||| (rank &&& Rank.auth)

/-- The AUTH bit of a rank is either clear or set. -/
theorem and_auth_eq_zero_or_eq (r : UInt8) : r &&& Rank.auth = 0 ∨ r &&& Rank.auth = Rank.auth := by
  revert r
  decide +kernel

/-- Setting any rank but SECURE never leaves one that tests SECURE: a valid rank keeps only its
AUTH bit, and `kr_rank_set` leaves an invalid one, which tests nothing, as it is. -/
theorem krRankTest_krRankSet_secure {f : UInt8}
    (hf : f ∈ [Rank.omit_, Rank.try_, Rank.bogus, Rank.mismatch, Rank.missing, Rank.insecure])
    (r : UInt8) : krRankTest (krRankSet r f) Rank.secure = false := by
  simp only [List.mem_cons, List.not_mem_nil, or_false] at hf
  unfold krRankSet
  by_cases hr : krRankCheck r = true
  · rcases and_auth_eq_zero_or_eq r with h | h <;>
      rcases hf with rfl | rfl | rfl | rfl | rfl | rfl <;> rw [h, hr, if_neg (by decide)] <;>
      decide
  · have hcheck : krRankTest r Rank.secure = false := by simp [krRankTest, hr]
    simpa [hr] using hcheck

/-- An entry of a `ranked_rr_array_t`: an RRset with its rank and the query it came from.
`inProgress` marks an RRset still collecting records within one packet, `cached` one that came
from the cache, `dontCache` one the cache must not store. -/
structure RankedEntry where
  rr : RRset
  rank : UInt8
  qryUid : UInt32
  yielded : Bool := false
  toWire : Bool := false
  inProgress : Bool := false
  cached : Bool := false
  dontCache : Bool := false

/-! ## Return codes -/

namespace Errno

def enoent : ℤ := 2
def eio : ℤ := 5
def e2big : ℤ := 7
def eagain : ℤ := 11
def enomem : ℤ := 12
def efault : ℤ := 14
def eexist : ℤ := 17
def einval : ℤ := 22
def enospc : ℤ := 28
def erange : ℤ := 34
def ebadmsg : ℤ := 74
def eilseq : ℤ := 84
def emsgsize : ℤ := 90

end Errno

/-- `kr_ok()`. -/
def krOk : ℤ := 0

/-- `kr_error(x)`: an `errno` value made negative; a negative code is kept as it is. -/
def krError (x : ℤ) : ℤ := if x ≤ 0 then x else -x

theorem krError_einval_ne_zero : krError Errno.einval ≠ 0 := by decide
theorem krError_eilseq_ne_zero : krError Errno.eilseq ≠ 0 := by decide
theorem krError_enoent_ne_zero : krError Errno.enoent ≠ 0 := by decide

-- The packet classes of `lib/layer/iterate.h`, bit flags.
namespace Pkt

def noerror : ℕ := 1
def nodata : ℕ := 2
def nxdomain : ℕ := 4

end Pkt

end KnotResolver
