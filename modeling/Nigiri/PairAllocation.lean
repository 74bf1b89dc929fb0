import Nigiri.CheckedInt
import Nigiri.Checks
import Nigiri.ReadyChannel
import Nigiri.Utf8

/-! What the builder of a pair accepts: its deadline, its four images, and a channel whose two
sides and whose funding stay within their bounds. -/
namespace Nigiri.Fixtures
open Nigiri.CheckedInt Nigiri.Checks Nigiri.Lnd
variable {Hash Instant : Type}

def MIN_NOMINAL_SIDE_BALANCE : UInt64 := 100000
def FUNDING_RESERVE : UInt64 := 200000

/-- The monetary range of Bitcoin, in satoshis. -/
def MAX_MONEY : UInt64 := 2100000000000000

/-- The one error of the fixture that a validation gives. -/
structure InvalidConfiguration where
  detail : String
  deriving DecidableEq, Repr

structure ContainerImage where
  name : String
  tag : String
  digest : Option String
  entrypoint : Option String
  deriving DecidableEq, Repr

def isSha256Digest (digest : String) : Bool :=
  match "sha256:".toList.isPrefixOf digest.toList with
  | false => false
  | true =>
    let hex := Utf8.encode (digest.toList.drop "sha256:".length)
    hex.length == 64 && hex.all fun byte =>
      (48 ≤ byte && byte ≤ 57) || (97 ≤ byte && byte ≤ 102)

def ContainerImage.validate (image : ContainerImage) : Except InvalidConfiguration Unit :=
  if image.name.isEmpty then .error ⟨"image name must not be empty"⟩
  else if image.tag.isEmpty then .error ⟨"image tag must not be empty"⟩
  else if image.digest.any (!isSha256Digest ·) then
    .error ⟨"image digest must be sha256 followed by 64 lowercase hexadecimal characters"⟩
  else if image.entrypoint.any fun entrypoint =>
      (Core.trimMatches Core.isWhitespace entrypoint.toList).isEmpty then
    .error ⟨"image entrypoint must not be blank"⟩
  else .ok ()

/-- Adding the duration to the clock fails past the supported range. -/
def validateDuration (checkedAdd : Nat → Option Instant) (duration : Nat) :
    Except InvalidConfiguration Unit :=
  if duration = 0 then .error ⟨"startup deadline must be greater than zero"⟩
  else if (checkedAdd duration).isNone then
    .error ⟨"startup deadline exceeds the supported absolute instant range"⟩
  else .ok ()

/-- Durations are counted in nanoseconds and amounts in satoshis. -/
structure LndPairBuilder where
  startupTimeout : Nat
  bitcoindImage : ContainerImage
  bitcoinElectrsImage : ContainerImage
  aliceImage : ContainerImage
  bobImage : ContainerImage
  channelCapacity : UInt64
  pushAmount : UInt64

/-- The part of the validation that is about the channel. -/
def channelAllocation (capacity push : UInt64) :
    Except InvalidConfiguration ChannelAllocation := do
  let fundingAmount ← orError (CheckedInt.checkedAdd capacity FUNDING_RESERVE)
    ⟨"LND channel funding amount overflowed"⟩
  let _ ← orError (toSigned capacity)
    ⟨"LND channel capacity exceeds the signed request range"⟩
  let _ ← orError (toSigned push)
    ⟨"LND channel push amount exceeds the signed request range"⟩
  if MAX_MONEY < fundingAmount then
    .error ⟨"LND wallet funding amount exceeds Bitcoin's monetary range"⟩
  else if push = 0 then .error ⟨"LND channel push amount must be greater than zero"⟩
  else if capacity ≤ push then
    .error ⟨"LND channel push amount must be lower than channel capacity"⟩
  else do
    let alice ← orError (checkedSub capacity push) ⟨"LND channel allocation underflowed"⟩
    if alice < MIN_NOMINAL_SIDE_BALANCE then
      .error ⟨"LND channel must leave Alice at least 100000 satoshis"⟩
    else if push < MIN_NOMINAL_SIDE_BALANCE then
      .error ⟨"LND channel must give Bob at least 100000 satoshis"⟩
    else .ok ⟨capacity, push, fundingAmount⟩

def LndPairBuilder.images (builder : LndPairBuilder) : List ContainerImage :=
  [builder.bitcoindImage, builder.bitcoinElectrsImage, builder.aliceImage, builder.bobImage]

def LndPairBuilder.validate (checkedAdd : Nat → Option Instant) (builder : LndPairBuilder) :
    Except InvalidConfiguration ChannelAllocation := do
  validateDuration checkedAdd builder.startupTimeout
  forM builder.images ContainerImage.validate
  channelAllocation builder.channelCapacity builder.pushAmount

/-- Everything but the channel is valid. -/
def LndPairBuilder.OptionsValid (checkedAdd : Nat → Option Instant) (builder : LndPairBuilder) :
    Prop :=
  validateDuration checkedAdd builder.startupTimeout = .ok () ∧
    ∀ image ∈ builder.images, image.validate = .ok ()

/-- Both sides keep the minimum, and the channel can be funded with the reserve. -/
structure Fits (capacity push : UInt64) : Prop where
  bob : MIN_NOMINAL_SIDE_BALANCE.toNat ≤ push.toNat
  alice : MIN_NOMINAL_SIDE_BALANCE.toNat ≤ capacity.toNat - push.toNat
  funding : capacity.toNat + FUNDING_RESERVE.toNat ≤ MAX_MONEY.toNat

theorem channelAllocation_ok_iff {capacity push : UInt64} {allocation : ChannelAllocation} :
    channelAllocation capacity push = .ok allocation ↔
      Fits capacity push ∧ allocation.capacity = capacity ∧ allocation.push = push ∧
        allocation.fundingAmount.toNat = capacity.toNat + FUNDING_RESERVE.toNat := by
  have hmin : MIN_NOMINAL_SIDE_BALANCE.toNat = 100000 := rfl
  have hreserve : FUNDING_RESERVE.toNat = 200000 := rfl
  have hmax : MAX_MONEY.toNat = 2100000000000000 := rfl
  simp only [channelAllocation, bind_ok_iff, orError_ok_iff, guard_ok_iff, Except.ok.injEq,
    checkedAdd_eq_some_iff, toSigned_eq_some_iff, checkedSub_eq_some_iff, UInt64.lt_iff_toNat_lt,
    UInt64.le_iff_toNat_le, ← UInt64.toNat_inj, UInt64.toNat_zero]
  constructor
  · rintro ⟨funding, hfunding, _, _, _, _, hmoney, hpos, hlt, alice, halice, hside, hpush, rfl⟩
    exact ⟨⟨by omega, by omega, by omega⟩, rfl, rfl, hfunding⟩
  · rintro ⟨⟨hbob, halice, hmoney⟩, hcapacity, hpush, hfunding⟩
    have hle : push ≤ capacity := UInt64.le_iff_toNat_le.mpr (by omega)
    have hside : (capacity - push).toNat = capacity.toNat - push.toNat :=
      UInt64.toNat_sub_of_le _ _ hle
    refine ⟨allocation.fundingAmount, hfunding, _, toInt_toInt64 (by omega), _,
      toInt_toInt64 (by omega), by omega, by omega, by omega, capacity - push, by omega,
      by omega, by omega, ?_⟩
    rw [UInt64.toNat_inj] at hcapacity hpush
    rw [← hcapacity, ← hpush]

theorem LndPairBuilder.validate_ok_iff {checkedAdd : Nat → Option Instant}
    {builder : LndPairBuilder} {allocation : ChannelAllocation} :
    builder.validate checkedAdd = .ok allocation ↔ builder.OptionsValid checkedAdd ∧
      channelAllocation builder.channelCapacity builder.pushAmount = .ok allocation := by
  simp only [LndPairBuilder.validate, LndPairBuilder.OptionsValid, bind_ok_iff, ← forM_ok_iff]
  constructor
  · rintro ⟨_, hduration, _, himages, hchannel⟩
    exact ⟨⟨hduration, himages⟩, hchannel⟩
  · rintro ⟨⟨hduration, himages⟩, hchannel⟩
    exact ⟨(), hduration, (), himages, hchannel⟩

/-- The subtraction comes after the comparison that makes it safe. -/
theorem LndPairBuilder.validate_ne_underflow (checkedAdd : Nat → Option Instant)
    (builder : LndPairBuilder) :
    builder.validate checkedAdd ≠ .error ⟨"LND channel allocation underflowed"⟩ := by
  suffices hfails : FailsWith (· ≠ ⟨"LND channel allocation underflowed"⟩)
      (builder.validate checkedAdd) from fun h => hfails _ h rfl
  have hduration : FailsWith (· ≠ ⟨"LND channel allocation underflowed"⟩)
      (validateDuration checkedAdd builder.startupTimeout) :=
    failsWith_guard (by decide) (failsWith_guard (by decide) (failsWith_ok _))
  have himage : ∀ image : ContainerImage,
      FailsWith (· ≠ ⟨"LND channel allocation underflowed"⟩) image.validate := fun _ =>
    failsWith_guard (by decide) (failsWith_guard (by decide)
      (failsWith_guard (by decide) (failsWith_guard (by decide) (failsWith_ok _))))
  refine failsWith_bind hduration fun _ => failsWith_bind (failsWith_forM himage) fun _ =>
    failsWith_bind (failsWith_orError (by decide)) fun funding =>
    failsWith_bind (failsWith_orError (by decide)) fun _ =>
    failsWith_bind (failsWith_orError (by decide)) fun _ =>
    failsWith_guard (by decide) (failsWith_guard (by decide) ?_)
  by_cases hle : builder.channelCapacity ≤ builder.pushAmount
  · rw [if_pos hle]
    exact failsWith_error (by decide)
  · have hsafe : builder.pushAmount ≤ builder.channelCapacity :=
      UInt64.le_of_lt (UInt64.not_le.mp hle)
    rw [if_neg hle, checkedSub, if_pos hsafe]
    exact failsWith_guard (by decide) (failsWith_guard (by decide) (failsWith_ok _))

theorem openChannelRequest_of_fits {capacity push : UInt64} (hfits : Fits capacity push)
    (publicKey : WireFormat.Bytes) :
    ∃ request : OpenChannelRequest,
      (OpenChannelRequest.new publicKey capacity push : Except (LndError Hash) _) = .ok request ∧
      request.peerPublicKey = publicKey ∧ request.capacity = capacity ∧
      request.pushAmount = push := by
  have hmin : MIN_NOMINAL_SIDE_BALANCE.toNat = 100000 := rfl
  have hbob := hfits.bob
  have halice := hfits.alice
  have hcapacity : capacity ≠ 0 := by
    intro hzero
    have : capacity.toNat = 0 := congrArg UInt64.toNat hzero
    omega
  have hpush : ¬ capacity ≤ push := by
    rw [UInt64.le_iff_toNat_le]
    omega
  rw [OpenChannelRequest.new, dif_neg hcapacity, dif_neg hpush]
  exact ⟨_, rfl, rfl, rfl, rfl⟩

theorem satsI64_exact {value : UInt64} (detail : String) (h : value.toNat < 2 ^ 63) :
    (satsI64 value detail : Except (LndError Hash) Int64) = .ok value.toInt64 ∧
      value.toInt64.toInt = value.toNat :=
  ⟨if_pos h, toInt_toInt64 h⟩

theorem protoOpenChannelRequest_exact {request : OpenChannelRequest}
    (hcapacity : request.capacity.toNat < 2 ^ 63) :
    ∃ wire : ProtoOpenChannelRequest,
      (protoOpenChannelRequest request : Except (LndError Hash) _) = .ok wire ∧
      wire.nodePubkey = request.peerPublicKey ∧
      wire.localFundingAmount.toInt = request.capacity.toNat ∧
      wire.pushSat.toInt = request.pushAmount.toNat := by
  have hlt := UInt64.lt_iff_toNat_lt.mp request.push_lt_capacity
  obtain ⟨hlocal, hlocalExact⟩ := @satsI64_exact Hash request.capacity
    "channel capacity exceeds LND's signed amount range" hcapacity
  obtain ⟨hpush, hpushExact⟩ := @satsI64_exact Hash request.pushAmount
    "channel push amount exceeds LND's signed amount range" (hlt.trans hcapacity)
  rw [protoOpenChannelRequest, hlocal, hpush]
  exact ⟨_, rfl, rfl, hlocalExact, hpushExact⟩

/-- The builder accepts exactly the channels whose sides and funding are within their bounds, and
no later conversion of an accepted channel's amounts fails or changes them. -/
theorem LndPairBuilder.validate_channel_amounts (checkedAdd : Nat → Option Instant)
    (builder : LndPairBuilder) :
    ((∃ allocation, builder.validate checkedAdd = .ok allocation) ↔
      builder.OptionsValid checkedAdd ∧ Fits builder.channelCapacity builder.pushAmount) ∧
    builder.validate checkedAdd ≠ .error ⟨"LND channel allocation underflowed"⟩ ∧
    ∀ allocation, builder.validate checkedAdd = .ok allocation →
      allocation.capacity = builder.channelCapacity ∧ allocation.push = builder.pushAmount ∧
      allocation.fundingAmount.toNat = allocation.capacity.toNat + FUNDING_RESERVE.toNat ∧
      ∀ publicKey, ∃ (request : OpenChannelRequest) (wire : ProtoOpenChannelRequest),
        (OpenChannelRequest.new publicKey allocation.capacity allocation.push :
          Except (LndError Hash) _) = .ok request ∧
        (protoOpenChannelRequest request : Except (LndError Hash) _) = .ok wire ∧
        wire.nodePubkey = publicKey ∧
        wire.localFundingAmount.toInt = allocation.capacity.toNat ∧
        wire.pushSat.toInt = allocation.push.toNat := by
  refine ⟨?_, builder.validate_ne_underflow checkedAdd, ?_⟩
  · simp only [LndPairBuilder.validate_ok_iff, channelAllocation_ok_iff]
    constructor
    · rintro ⟨allocation, hoptions, hfits, _⟩
      exact ⟨hoptions, hfits⟩
    · rintro ⟨hoptions, hfits⟩
      obtain ⟨funding, hfunding⟩ := exists_sum (hfits.funding.trans_lt MAX_MONEY.toNat_lt)
      exact ⟨⟨_, _, funding⟩, hoptions, hfits, rfl, rfl, hfunding⟩
  · intro allocation hvalid
    rw [LndPairBuilder.validate_ok_iff, channelAllocation_ok_iff] at hvalid
    obtain ⟨_, hfits, hcapacity, hpush, hfunding⟩ := hvalid
    rw [← hcapacity] at hfunding
    refine ⟨hcapacity, hpush, hfunding, fun publicKey => ?_⟩
    rw [← hcapacity, ← hpush] at hfits
    obtain ⟨request, hrequest, hsameKey, hsame, hsamePush⟩ :=
      @openChannelRequest_of_fits Hash _ _ hfits publicKey
    have hmoney := hfits.funding
    have hmax : MAX_MONEY.toNat = 2100000000000000 := rfl
    obtain ⟨wire, hwire, hkey, hlocal, hsent⟩ :=
      @protoOpenChannelRequest_exact Hash request (by rw [hsame]; omega)
    refine ⟨request, wire, hrequest, hwire, ?_, ?_, ?_⟩
    · rw [hkey, hsameKey]
    · rw [hlocal, hsame]
    · rw [hsent, hsamePush]

end Nigiri.Fixtures
