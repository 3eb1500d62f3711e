import Mathlib

/-!
# Decoding images

An image is tried as a GIF, a WebP and an APNG animation and then read as a static one. A decoder of the image crate is
a canvas of a declared size and the frames that come when they are asked for, the last of which may fail; each request
is recorded with the pixels that had come before it.

* `decode_budgeted_iff`: which images are decoded within the budget.
* `decode_not_budgeted`: a short animation on a large canvas, all of which is decoded before it is refused.
-/

namespace Mizu

open List

namespace ImageCodec

/-- `MAX_IMAGE_PIXELS`. -/
def maxImagePixels : Nat := 64000000

/-- `MAX_ANIMATION_TOTAL_PIXELS`. -/
def maxAnimationTotalPixels : Nat := maxImagePixels

/-- Pixels of some size. -/
structure RgbaImage (P : Type) where
  width : Nat
  height : Nat
  pixels : P

/-- A frame of the image crate; its delay is a fraction of milliseconds. -/
structure RawFrame (P : Type) where
  numer : Nat
  denom : Nat
  buffer : RgbaImage P

/-- A decoder of an animation. Its frames are as large as the canvas, and `none` is one that fails. -/
structure FrameDecoder (P : Type) where
  width : Nat
  height : Nat
  frames : List (Option (RawFrame P))
  sized : ∀ frame, some frame ∈ frames → frame.buffer.width = width ∧ frame.buffer.height = height

structure PngDecoder (P : Type) where
  /-- `is_apng`, which may fail. -/
  isApng : Option Bool
  apng : Option (FrameDecoder P)

/-- `ImageReader` and `load_from_memory`. -/
structure StaticDecoder (P : Type) where
  width : Nat
  height : Nat
  load : Option P

/-- What the decoders make of some bytes, if they accept them at all. -/
structure ImageBytes (P : Type) where
  gif : Option (FrameDecoder P)
  webp : Option (FrameDecoder P)
  png : Option (PngDecoder P)
  still : Option (StaticDecoder P)

/-- `overlay` and `premultiply_alpha`. -/
structure PixelOps (P : Type) where
  overlay : P → P → P
  premultiplyAlpha : P → P

/-- `Frame`, with its texture. -/
structure ImageFrame (P : Type) where
  texture : RgbaImage P
  durationMs : Nat

/-- `AnimatedImage`. -/
inductive DecodedImage (P : Type) where
  | still (image : RgbaImage P)
  | animated (frames : List (ImageFrame P)) (totalDurationMs : Nat)

/-- A request for a frame: the pixels of the canvas, and those of the frames that came before. -/
structure Pull where
  canvas : Nat
  before : Nat
  deriving DecidableEq, Repr

section Decode

variable {P : Type}

/-- `collect::<Result<Vec<_>, _>>`: asks for frames until one fails or there are no more. -/
def collectFrames (canvas : Nat) : Nat → List (Option (RawFrame P)) → List Pull × Option (List (RawFrame P))
  | before, [] => ([⟨canvas, before⟩], some [])
  | before, none :: _ => ([⟨canvas, before⟩], none)
  | before, some frame :: rest =>
    let (pulls, frames) := collectFrames canvas (before + canvas) rest
    (⟨canvas, before⟩ :: pulls, frames.map (frame :: ·))

/-- The variables of the loop. -/
structure Composed (P : Type) where
  frames : List (ImageFrame P)
  totalDurationMs : Nat
  totalPixels : Nat
  canvas : Option (RgbaImage P)

def frameDurationMs (frame : RawFrame P) : Nat :=
  let durationMs := if 0 < frame.denom then frame.numer / frame.denom else 100
  if durationMs = 0 then 100 else durationMs

variable (ops : PixelOps P)

/-- A frame; `none` refuses the image. -/
def composeFrame (c : Composed P) (frame : RawFrame P) : Option (Composed P) :=
  let canvas :=
    match c.canvas with
    | none => frame.buffer
    | some canvas => { canvas with pixels := ops.overlay canvas.pixels frame.buffer.pixels }
  let totalPixels := min (c.totalPixels + canvas.width * canvas.height) (2 ^ 64 - 1)
  if maxAnimationTotalPixels < totalPixels then none
  else
    let texture := { canvas with pixels := ops.premultiplyAlpha canvas.pixels }
    let durationMs := frameDurationMs frame
    some ⟨c.frames ++ [⟨texture, durationMs⟩], (c.totalDurationMs + durationMs) % 2 ^ 64, totalPixels,
      some canvas⟩

/-- How a branch ends. -/
inductive BranchOutcome (P : Type) where
  | refused
  | decoded (image : DecodedImage P)
  | next

/-- What is done with the frames of a decoder. -/
def composeFrames (raw : List (RawFrame P)) : BranchOutcome P :=
  match raw.foldlM (composeFrame ops) ⟨[], 0, 0, none⟩ with
  | none => .refused
  | some c =>
    if 0 < c.totalDurationMs ∧ c.frames ≠ [] then .decoded (.animated c.frames c.totalDurationMs) else .next

/-- The frames of a decoder; one frame is no animation. -/
def decodeFrames (d : FrameDecoder P) : List Pull × BranchOutcome P :=
  let collected := collectFrames (d.width * d.height) 0 d.frames
  (collected.1,
    match collected.2 with
    | some frames => if 1 < frames.length then composeFrames ops frames else .next
    | none => .next)

/-- The GIF and the WebP branch, which look at the size of the canvas. -/
def decodeChecked : Option (FrameDecoder P) → List Pull × BranchOutcome P
  | none => ([], .next)
  | some d => if maxImagePixels < d.width * d.height then ([], .next) else decodeFrames ops d

/-- The APNG branch, which does not. -/
def decodeApng : Option (PngDecoder P) → List Pull × BranchOutcome P
  | none => ([], .next)
  | some png =>
    if png.isApng.getD false then
      match png.apng with
      | none => ([], .next)
      | some d => decodeFrames ops d
    else ([], .next)

def decodeStill : Option (StaticDecoder P) → List Pull × BranchOutcome P
  | none => ([], .refused)
  | some d =>
    if maxImagePixels < d.width * d.height then ([], .refused)
    else
      match d.load with
      | none => ([⟨d.width * d.height, 0⟩], .refused)
      | some pixels =>
        ([⟨d.width * d.height, 0⟩], .decoded (.still ⟨d.width, d.height, ops.premultiplyAlpha pixels⟩))

/-- Goes on to the next branch. -/
def orElse (first : List Pull × BranchOutcome P) (second : List Pull × BranchOutcome P) :
    List Pull × BranchOutcome P :=
  match first with
  | (pulls, .next) => (pulls ++ second.1, second.2)
  | decided => decided

/-- `decode_image_bytes`, with the requests it makes. -/
def decodeImageBytes (bytes : ImageBytes P) : List Pull × Option (DecodedImage P) :=
  match orElse (decodeChecked ops bytes.gif)
      (orElse (decodeChecked ops bytes.webp) (orElse (decodeApng ops bytes.png) (decodeStill ops bytes.still))) with
  | (pulls, .decoded image) => (pulls, some image)
  | (pulls, _) => (pulls, none)

/-! ## What is asked of the decoder -/

def Pull.InBudget (pull : Pull) : Prop := pull.before ≤ maxAnimationTotalPixels ∧ pull.canvas ≤ maxImagePixels

/-- Frames of one size that are shown for some time each, and for the total together. -/
structure SoundAnimation (frames : List (ImageFrame P)) (totalDurationMs : Nat) : Prop where
  size : ∃ width height, ∀ frame ∈ frames, frame.texture.width = width ∧ frame.texture.height = height
  positive : ∀ frame ∈ frames, 0 < frame.durationMs
  total : totalDurationMs = (frames.map (·.durationMs)).sum

structure Budgeted (out : List Pull × Option (DecodedImage P)) : Prop where
  pulls : ∀ pull ∈ out.1, pull.InBudget
  animated : ∀ frames total, out.2 = some (.animated frames total) → SoundAnimation frames total

/-! ## Which images are decoded so -/

def FrameDecoder.canvas (d : FrameDecoder P) : Nat := d.width * d.height

/-- The sum of the durations, before it wraps around. -/
def durationSum (frames : List (RawFrame P)) : Nat := (frames.map frameDurationMs).sum

/-- More than one frame and no failure. -/
def FrameDecoder.Plays (d : FrameDecoder P) (frames : List (RawFrame P)) : Prop :=
  d.frames = frames.map some ∧ 1 < frames.length

/-- The frames up to the first failure are within the budget, and the durations fit a `u64`. -/
structure FrameDecoder.Fits (d : FrameDecoder P) : Prop where
  pixels : (d.frames.takeWhile (·.isSome)).length * d.canvas ≤ maxAnimationTotalPixels
  duration : ∀ frames, d.Plays frames → durationSum frames < 2 ^ 64 ∨ durationSum frames % 2 ^ 64 = 0

/-- Nothing is played, and the next branch is tried. -/
def FrameDecoder.Skipped (d : FrameDecoder P) : Prop :=
  ∀ frames, d.Plays frames → durationSum frames % 2 ^ 64 = 0

/-- The decoder that a branch runs if it looks at the size of the canvas. -/
def checkedDecoder (d : Option (FrameDecoder P)) : Option (FrameDecoder P) :=
  d.bind fun d => if d.canvas ≤ maxImagePixels then some d else none

def apngDecoder (png : Option (PngDecoder P)) : Option (FrameDecoder P) :=
  png.bind fun png => if png.isApng.getD false then png.apng else none

/-- Every decoder that is run stays within the budget. -/
structure ImageBytes.Fits (bytes : ImageBytes P) : Prop where
  gif : ∀ d, checkedDecoder bytes.gif = some d → d.Fits
  webp : (∀ d, checkedDecoder bytes.gif = some d → d.Skipped) → ∀ d, checkedDecoder bytes.webp = some d → d.Fits
  apng : (∀ d, checkedDecoder bytes.gif = some d → d.Skipped) →
    (∀ d, checkedDecoder bytes.webp = some d → d.Skipped) →
    ∀ d, apngDecoder bytes.png = some d → d.Fits ∧ d.canvas ≤ maxImagePixels

/-! ## The loop -/

variable {raw : List (RawFrame P)}

section Loop

variable (ops : PixelOps P) {width height : Nat}

theorem collectFrames_pulls_iff (canvas before : Nat) (frames : List (Option (RawFrame P))) :
    (∀ pull ∈ (collectFrames canvas before frames).1, pull.InBudget) ↔
      before + (frames.takeWhile (·.isSome)).length * canvas ≤ maxAnimationTotalPixels ∧
        canvas ≤ maxImagePixels := by
  induction frames generalizing before with
  | nil => simp [collectFrames, Pull.InBudget]
  | cons frame rest ih =>
    cases frame with
    | none => simp [collectFrames, Pull.InBudget]
    | some frame =>
      simp only [collectFrames, forall_mem_cons, takeWhile_cons, Option.isSome_some, if_true,
        length_cons, Nat.succ_mul]
      rw [ih, Pull.InBudget]
      dsimp only
      omega

theorem collectFrames_frames_iff (canvas before : Nat) (frames : List (Option (RawFrame P)))
    (raw : List (RawFrame P)) :
    (collectFrames canvas before frames).2 = some raw ↔ frames = raw.map some := by
  induction frames generalizing before raw with
  | nil => cases raw <;> simp [collectFrames]
  | cons frame rest ih =>
    cases frame with
    | none => cases raw <;> simp [collectFrames]
    | some frame =>
      cases raw with
      | nil => simp [collectFrames]
      | cons first raw => grind [collectFrames, Option.map_eq_some_iff]

theorem frameDurationMs_pos (frame : RawFrame P) : 0 < frameDurationMs frame := by
  grind [frameDurationMs]

/-- A frame takes its part of the budget and has the size of the canvas. -/
theorem composeFrame_eq {c : Composed P} {frame : RawFrame P}
    (hframe : frame.buffer.width = width ∧ frame.buffer.height = height)
    (hcanvas : ∀ canvas, c.canvas = some canvas → canvas.width = width ∧ canvas.height = height) :
    (maxAnimationTotalPixels < c.totalPixels + width * height ∧ composeFrame ops c frame = none) ∨
      (c.totalPixels + width * height ≤ maxAnimationTotalPixels ∧
        ∃ c' texture, composeFrame ops c frame = some c' ∧
          c'.frames = c.frames ++ [⟨texture, frameDurationMs frame⟩] ∧
          texture.width = width ∧ texture.height = height ∧
          c'.totalDurationMs = (c.totalDurationMs + frameDurationMs frame) % 2 ^ 64 ∧
          c'.totalPixels = c.totalPixels + width * height ∧
          ∀ canvas, c'.canvas = some canvas → canvas.width = width ∧ canvas.height = height) := by
  obtain ⟨canvas, hwidth, hheight, heq⟩ : ∃ canvas : RgbaImage P, canvas.width = width ∧ canvas.height = height ∧
      (match c.canvas with
        | none => frame.buffer
        | some canvas => { canvas with pixels := ops.overlay canvas.pixels frame.buffer.pixels }) = canvas := by
    cases hc : c.canvas with
    | none => exact ⟨_, hframe.1, hframe.2, rfl⟩
    | some old => grind
  have hcompose : composeFrame ops c frame =
      if maxAnimationTotalPixels < min (c.totalPixels + width * height) (2 ^ 64 - 1) then none
      else some ⟨
        c.frames ++ [⟨{ canvas with pixels := ops.premultiplyAlpha canvas.pixels }, frameDurationMs frame⟩],
        (c.totalDurationMs + frameDurationMs frame) % 2 ^ 64, min (c.totalPixels + width * height) (2 ^ 64 - 1),
        some canvas⟩ := by
    unfold composeFrame
    simp only [heq, hwidth, hheight]
  have hcap : maxAnimationTotalPixels < 2 ^ 64 - 1 := by decide
  by_cases hover : maxAnimationTotalPixels < c.totalPixels + width * height
  · exact .inl ⟨hover, by rw [hcompose, if_pos (by omega)]⟩
  · grind

/-- The frames of the loop have the size of the first one. -/
theorem composeFrames_loop (raw : List (RawFrame P)) (c : Composed P)
    (hraw : ∀ frame ∈ raw, frame.buffer.width = width ∧ frame.buffer.height = height)
    (hcanvas : ∀ canvas, c.canvas = some canvas → canvas.width = width ∧ canvas.height = height)
    (hpixels : c.totalPixels ≤ maxAnimationTotalPixels) (hduration : c.totalDurationMs < 2 ^ 64) :
    match raw.foldlM (composeFrame ops) c with
    | none => maxAnimationTotalPixels < c.totalPixels + raw.length * (width * height)
    | some c' =>
      c.totalPixels + raw.length * (width * height) ≤ maxAnimationTotalPixels ∧
        ∃ frames, c'.frames = c.frames ++ frames ∧
          (∀ frame ∈ frames, frame.texture.width = width ∧ frame.texture.height = height) ∧
          frames.map (·.durationMs) = raw.map frameDurationMs ∧
          c'.totalDurationMs = (c.totalDurationMs + durationSum raw) % 2 ^ 64 := by
  induction raw generalizing c with
  | nil => exact ⟨by simpa using hpixels, [], by simp, nofun, rfl, (Nat.mod_eq_of_lt hduration).symm⟩
  | cons frame raw ih =>
    obtain ⟨hframe, hraw⟩ := forall_mem_cons.mp hraw
    rw [foldlM_cons, length_cons, Nat.succ_mul]
    rcases composeFrame_eq ops hframe hcanvas with ⟨hover, hnone⟩ | hnext
    · rw [hnone]
      show maxAnimationTotalPixels < _
      omega
    · obtain ⟨hfits, next, texture, hsome, hframes, hwidth, hheight, htotal, hpixels, hcanvas⟩ := hnext
      have hloop := ih next hraw hcanvas (by omega) (htotal ▸ Nat.mod_lt _ (by decide))
      rw [hsome, Option.bind_eq_bind, Option.bind_some]
      split at hloop
      · omega
      · obtain ⟨hrest, frames, hframes', hsizes, hdurations, htotal'⟩ := hloop
        refine ⟨by omega, ⟨texture, frameDurationMs frame⟩ :: frames, ?_, ?_, ?_, ?_⟩
        · rw [hframes', hframes, append_assoc]
          rfl
        · exact forall_mem_cons.mpr ⟨⟨hwidth, hheight⟩, hsizes⟩
        · rw [map_cons, map_cons, hdurations]
        · rw [htotal', htotal, Nat.mod_add_mod, Nat.add_assoc]
          rfl

theorem composeFrames_cases
    (hraw : ∀ frame ∈ raw, frame.buffer.width = width ∧ frame.buffer.height = height)
    (hfits : raw.length * (width * height) ≤ maxAnimationTotalPixels) (hmany : 1 < raw.length) :
    (durationSum raw % 2 ^ 64 = 0 ∧ composeFrames ops raw = .next) ∨
      (0 < durationSum raw % 2 ^ 64 ∧ ∃ frames,
        composeFrames ops raw = .decoded (.animated frames (durationSum raw % 2 ^ 64)) ∧
          (∀ frame ∈ frames, frame.texture.width = width ∧ frame.texture.height = height) ∧
          frames.map (·.durationMs) = raw.map frameDurationMs) := by
  have hloop :=
    composeFrames_loop ops raw ⟨[], 0, 0, none⟩ hraw nofun (Nat.zero_le _) (Nat.two_pow_pos 64)
  unfold composeFrames
  split at hloop
  · simp only [Nat.zero_add] at hloop
    omega
  · next c heq =>
    obtain ⟨-, frames, hframes, hsizes, hdurations, htotal⟩ := hloop
    rw [nil_append] at hframes
    rw [Nat.zero_add] at htotal
    have hne : c.frames ≠ [] := by
      rintro hnil
      have := congrArg List.length hdurations
      rw [← hframes, hnil] at this
      simp at this
      omega
    by_cases hzero : durationSum raw % 2 ^ 64 = 0
    · grind
    · grind

end Loop

/-! ## The branches -/

section Branches

variable {ops : PixelOps P} {d : FrameDecoder P} {first second : List Pull × BranchOutcome P}

structure BranchBudgeted (out : List Pull × BranchOutcome P) : Prop where
  pulls : ∀ pull ∈ out.1, pull.InBudget
  animated : ∀ frames total, out.2 = .decoded (.animated frames total) → SoundAnimation frames total

theorem decodeFrames_cases (ops : PixelOps P) (d : FrameDecoder P) :
    (∃ raw, d.Plays raw ∧
      decodeFrames ops d = ((collectFrames d.canvas 0 d.frames).1, composeFrames ops raw)) ∨
    ((∀ raw, ¬d.Plays raw) ∧ decodeFrames ops d = ((collectFrames d.canvas 0 d.frames).1, .next)) := by
  have hcollect := collectFrames_frames_iff d.canvas 0 d.frames
  have hdecode : decodeFrames ops d = ((collectFrames d.canvas 0 d.frames).1,
      match (collectFrames d.canvas 0 d.frames).2 with
      | some frames => if 1 < frames.length then composeFrames ops frames else .next
      | none => .next) := rfl
  cases hframes : (collectFrames d.canvas 0 d.frames).2 with
  | none =>
    refine .inr ⟨fun raw hplays => ?_, by rw [hdecode, hframes]⟩
    rw [(hcollect raw).mpr hplays.1] at hframes
    nomatch hframes
  | some raw =>
    by_cases hmany : 1 < raw.length
    · exact .inl ⟨raw, ⟨(hcollect raw).mp hframes, hmany⟩, by simp only [hdecode, hframes, if_pos hmany]⟩
    · refine .inr ⟨fun other hplays => hmany ?_, by simp only [hdecode, hframes, if_neg hmany]⟩
      rw [(hcollect other).mpr hplays.1] at hframes
      exact Option.some.inj hframes ▸ hplays.2

theorem FrameDecoder.Plays.eq {raw raw' : List (RawFrame P)} (h : d.Plays raw) (h' : d.Plays raw') : raw = raw' :=
  map_inj_right (fun _ _ heq => Option.some.inj heq) |>.mp (h.1.symm.trans h'.1)

theorem FrameDecoder.Plays.length (h : d.Plays raw) :
    (d.frames.takeWhile (·.isSome)).length = raw.length := by
  rw [h.1, takeWhile_eq_self_iff.mpr (by simp), length_map]

theorem FrameDecoder.Plays.sized (h : d.Plays raw) :
    ∀ frame ∈ raw, frame.buffer.width = d.width ∧ frame.buffer.height = d.height :=
  fun frame hframe => d.sized frame (h.1 ▸ mem_map_of_mem hframe)

/-- A branch keeps the budget exactly if its decoder does, and then goes on exactly if nothing is played. -/
theorem decodeFrames_spec (ops : PixelOps P) (d : FrameDecoder P) :
    (BranchBudgeted (decodeFrames ops d) ↔ d.Fits ∧ d.canvas ≤ maxImagePixels) ∧
      (d.Fits → ((decodeFrames ops d).2 = .next ↔ d.Skipped)) := by
  have hpulls := collectFrames_pulls_iff d.canvas 0 d.frames
  rw [Nat.zero_add] at hpulls
  rcases decodeFrames_cases ops d with ⟨raw, hplays, heq⟩ | ⟨hnone, heq⟩
  · have hcases (hpixels : (d.frames.takeWhile (·.isSome)).length * d.canvas ≤ maxAnimationTotalPixels) :=
      composeFrames_cases ops hplays.sized (hplays.length ▸ hpixels) hplays.2
    rw [heq]
    constructor
    · constructor
      · rintro ⟨hbudget, hsound⟩
        obtain ⟨hpixels, hcanvas⟩ := hpulls.mp hbudget
        refine ⟨⟨hpixels, fun other hother => ?_⟩, hcanvas⟩
        obtain rfl := hplays.eq hother
        rcases hcases hpixels with ⟨hzero, -⟩ | ⟨-, frames, hdecoded, -, hdurations⟩
        · exact .inr hzero
        · have htotal := (hsound _ _ hdecoded).total
          rw [hdurations] at htotal
          exact .inl (Nat.mod_eq_iff_lt (by decide) |>.mp htotal)
      · rintro ⟨⟨hpixels, hduration⟩, hcanvas⟩
        refine ⟨hpulls.mpr ⟨hpixels, hcanvas⟩, fun frames total hdecoded => ?_⟩
        rcases hcases hpixels with ⟨-, hnext⟩ | ⟨hpos, frames', hdecoded', hsizes, hdurations⟩
        · nomatch hdecoded.symm.trans hnext
        · obtain ⟨rfl, rfl⟩ : frames = frames' ∧ total = durationSum raw % 2 ^ 64 := by grind
          refine ⟨⟨d.width, d.height, hsizes⟩, fun frame hframe => ?_, ?_⟩
          · have hmem : frame.durationMs ∈ raw.map frameDurationMs := hdurations ▸ mem_map_of_mem hframe
            obtain ⟨first, -, heq⟩ := mem_map.mp hmem
            exact heq ▸ frameDurationMs_pos first
          · rw [hdurations]
            rcases hduration raw hplays with hlt | hzero
            · exact Nat.mod_eq_of_lt hlt
            · omega
    · intro hfits
      have hskipped : d.Skipped ↔ durationSum raw % 2 ^ 64 = 0 :=
        ⟨fun h => h raw hplays, fun h other hother => hplays.eq hother ▸ h⟩
      rw [hskipped]
      rcases hcases hfits.pixels with ⟨hzero, hnext⟩ | ⟨hpos, frames, hdecoded, -⟩
      · exact iff_of_true hnext hzero
      · exact iff_of_false (by rw [hdecoded]; nofun) (by omega)
  · rw [heq]
    refine ⟨?_, fun _ => iff_of_true rfl fun raw hplays => absurd hplays (hnone raw)⟩
    constructor
    · intro hbudgeted
      obtain ⟨hpixels, hcanvas⟩ := hpulls.mp hbudgeted.pulls
      exact ⟨⟨hpixels, fun raw hplays => absurd hplays (hnone raw)⟩, hcanvas⟩
    · rintro ⟨hfits, hcanvas⟩
      exact ⟨hpulls.mpr ⟨hfits.pixels, hcanvas⟩, nofun⟩

/-- What a later branch does matters only if the earlier one goes on. -/
theorem branchBudgeted_orElse_iff :
    BranchBudgeted (orElse first second) ↔ BranchBudgeted first ∧ (first.2 = .next → BranchBudgeted second) := by
  obtain ⟨pulls, outcome⟩ := first
  cases outcome with
  | next =>
    simp only [orElse, true_imp_iff]
    constructor
    · rintro ⟨hpulls, hsound⟩
      obtain ⟨hfirst, hsecond⟩ := forall_mem_append.mp hpulls
      exact ⟨⟨hfirst, nofun⟩, hsecond, hsound⟩
    · rintro ⟨hfirst, hsecond⟩
      exact ⟨forall_mem_append.mpr ⟨hfirst.pulls, hsecond.pulls⟩, hsecond.animated⟩
  | refused => simp [orElse]
  | decoded image => simp [orElse]

theorem decodeChecked_eq (d : Option (FrameDecoder P)) :
    decodeChecked ops d = (checkedDecoder d).elim ([], .next) (decodeFrames ops) := by
  cases d with
  | none => rfl
  | some d =>
    simp only [decodeChecked, checkedDecoder, Option.bind_some]
    by_cases hsmall : d.canvas ≤ maxImagePixels
    · rw [if_pos hsmall, if_neg (show ¬maxImagePixels < d.width * d.height from Nat.not_lt.mpr hsmall)]
      rfl
    · rw [if_neg hsmall, if_pos (show maxImagePixels < d.width * d.height from Nat.not_le.mp hsmall)]
      rfl

theorem decodeApng_eq (png : Option (PngDecoder P)) :
    decodeApng ops png = (apngDecoder png).elim ([], .next) (decodeFrames ops) := by
  cases png with
  | none => rfl
  | some png => grind [decodeApng, apngDecoder]

theorem branch_spec (ops : PixelOps P) (d : Option (FrameDecoder P)) :
    (BranchBudgeted (d.elim ([], .next) (decodeFrames ops)) ↔
        ∀ decoder, d = some decoder → decoder.Fits ∧ decoder.canvas ≤ maxImagePixels) ∧
      ((∀ decoder, d = some decoder → decoder.Fits) →
        ((d.elim ([], .next) (decodeFrames ops)).2 = .next ↔
          ∀ decoder, d = some decoder → decoder.Skipped)) := by
  cases d with
  | none => exact ⟨iff_of_true ⟨nofun, nofun⟩ nofun, fun _ => iff_of_true rfl nofun⟩
  | some d =>
    obtain ⟨hbudgeted, hnext⟩ := decodeFrames_spec ops d
    simp only [Option.elim, Option.some.injEq, forall_eq']
    exact ⟨hbudgeted, hnext⟩

theorem decodeStill_budgeted (ops : PixelOps P) (still : Option (StaticDecoder P)) :
    BranchBudgeted (decodeStill ops still) := by
  unfold decodeStill
  cases still with
  | none => exact ⟨nofun, nofun⟩
  | some d =>
    dsimp only
    split
    · exact ⟨nofun, nofun⟩
    · next hsmall =>
      have hpull : ∀ pull ∈ [Pull.mk (d.width * d.height) 0], pull.InBudget :=
        forall_mem_singleton.mpr ⟨Nat.zero_le _, Nat.not_lt.mp hsmall⟩
      cases d.load with
      | none | some => exact ⟨hpull, nofun⟩

theorem checkedDecoder_canvas {o : Option (FrameDecoder P)} (h : checkedDecoder o = some d) :
    d.canvas ≤ maxImagePixels := by
  obtain ⟨other, -, heq⟩ := Option.bind_eq_some_iff.mp h
  split at heq
  · next hsmall => exact Option.some.inj heq ▸ hsmall
  · nomatch heq

end Branches

/-- An image is decoded within the budget exactly if every decoder that is run, up to the one that plays, stays within
it by itself. -/
theorem decode_budgeted_iff {P : Type} (ops : PixelOps P) (bytes : ImageBytes P) :
    Budgeted (decodeImageBytes ops bytes) ↔ bytes.Fits := by
  have hout : Budgeted (decodeImageBytes ops bytes) ↔
      BranchBudgeted (orElse (decodeChecked ops bytes.gif)
        (orElse (decodeChecked ops bytes.webp) (orElse (decodeApng ops bytes.png) (decodeStill ops bytes.still)))) := by
    unfold decodeImageBytes
    generalize orElse (decodeChecked ops bytes.gif) _ = out
    obtain ⟨pulls, outcome⟩ := out
    cases outcome with
    | decoded image =>
      exact ⟨fun h => ⟨h.pulls, fun frames total heq => h.animated frames total (by simpa using heq)⟩,
        fun h => ⟨h.pulls, fun frames total heq => h.animated frames total (by simpa using heq)⟩⟩
    | refused => exact ⟨fun h => ⟨h.pulls, nofun⟩, fun h => ⟨h.pulls, nofun⟩⟩
    | next => exact ⟨fun h => ⟨h.pulls, nofun⟩, fun h => ⟨h.pulls, nofun⟩⟩
  obtain ⟨hgif, hgifNext⟩ := branch_spec ops (checkedDecoder bytes.gif)
  obtain ⟨hwebp, hwebpNext⟩ := branch_spec ops (checkedDecoder bytes.webp)
  obtain ⟨hapng, -⟩ := branch_spec ops (apngDecoder bytes.png)
  rw [hout, branchBudgeted_orElse_iff, branchBudgeted_orElse_iff, branchBudgeted_orElse_iff, decodeChecked_eq,
    decodeChecked_eq, decodeApng_eq]
  constructor
  · rintro ⟨hgifOk, hrest⟩
    have hgifFits := hgif.mp hgifOk
    have hwebpOk (hskipped : ∀ d, checkedDecoder bytes.gif = some d → d.Skipped) :=
      hrest ((hgifNext fun d hd => (hgifFits d hd).1).mpr hskipped)
    refine ⟨fun d hd => (hgifFits d hd).1, fun hskipped d hd => (hwebp.mp (hwebpOk hskipped).1 d hd).1, ?_⟩
    intro hskipped hskipped' d hd
    have hwebpFits := hwebp.mp (hwebpOk hskipped).1
    have hnext := (hwebpNext fun d hd => (hwebpFits d hd).1).mpr hskipped'
    exact hapng.mp ((hwebpOk hskipped).2 hnext).1 d hd
  · rintro ⟨hgifFits, hwebpFits, hapngFits⟩
    refine ⟨hgif.mpr fun d hd => ⟨hgifFits d hd, checkedDecoder_canvas hd⟩, fun hnext => ?_⟩
    have hskipped := (hgifNext hgifFits).mp hnext
    refine ⟨hwebp.mpr fun d hd => ⟨hwebpFits hskipped d hd, checkedDecoder_canvas hd⟩, fun hnext => ?_⟩
    have hskipped' := (hwebpNext (hwebpFits hskipped)).mp hnext
    exact ⟨hapng.mpr (hapngFits hskipped hskipped'), fun _ => decodeStill_budgeted ops bytes.still⟩

/-- A frame that is shown for a tenth of a second. -/
def demoFrame : RawFrame Unit := ⟨100, 1, ⟨8000, 8000, ()⟩⟩

/-- Three frames of 64 megapixels each. -/
def demoGif : FrameDecoder Unit where
  width := 8000
  height := 8000
  frames := [some demoFrame, some demoFrame, some demoFrame]
  sized frame h := by
    simp only [List.mem_cons, Option.some.injEq, List.not_mem_nil, or_false, or_self] at h
    subst h
    exact ⟨rfl, rfl⟩

/-- The requests for its frames. -/
def demoPulls : List Pull :=
  [⟨64000000, 0⟩, ⟨64000000, 64000000⟩, ⟨64000000, 128000000⟩, ⟨64000000, 192000000⟩]

/-- All three frames are decoded before the image is refused. -/
theorem decode_not_budgeted :
    let out := decodeImageBytes ⟨fun c _ => c, id⟩ ⟨some demoGif, none, none, none⟩
    ¬Budgeted out ∧ out = (demoPulls, none) := by
  intro out
  have hout : out = (demoPulls, none) := rfl
  refine ⟨fun h => ?_, hout⟩
  rw [hout] at h
  have hpull := (h.pulls ⟨64000000, 192000000⟩ (by simp [demoPulls])).1
  exact absurd hpull (by decide)

end Decode

end ImageCodec

end Mizu
