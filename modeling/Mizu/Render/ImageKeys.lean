import Mizu.Network.Response
import Mizu.Render.Images
import Mizu.Render.Navigate

/-!
# The key of an image

The cache of decoded images is keyed by URL. `paint_node` asks for the image of a node under `resolveMediaUrl`,
and what the network worker answers is stored under the URL that was asked for; `build_taffy_tree` looks the image
up under `layoutImageUrl`, which resolves the same `src` on its own.

* `imageKeys_agree_iff`: the two keys are the same, and a loaded image is laid out with its size, exactly if
  `LaysOut` holds of the `src` and the committed URL.
* `imageKeys_disagree`: a relative `src` of a document on disk is not laid out.
-/

namespace Mizu

open Option

open UnixPath (join)

/-- The `abs_url` of `build_taffy_tree`. -/
def layoutImageUrl (host : Host) (src chromeUrl : String) : String :=
  if startsWith "mizu://" src then src
  else
    match host.uriDomain chromeUrl with
    | some domain => "mizu://" ++ domain ++ if startsWith "/" src then src else "/" ++ src
    | none => src

/-- The intrinsic size of an image node: `intr_width` and `intr_height`. -/
def intrinsicSize (host : Host) (src chromeUrl : String) (cache : ImageCache) : Option AnimatedImage × ImageCache :=
  let (slot, cache) := cache.get (layoutImageUrl host src chromeUrl)
  (slot.bind AssetSlot.image, cache)

/-- The image of a node is looked up under the key that it is asked for and stored under. -/
structure KeysAgree (host : Host) (src chromeUrl : String) : Prop where
  key_eq : ∀ url, resolveMediaUrl host src chromeUrl = some url → layoutImageUrl host src chromeUrl = url
  laid_out : ∀ url image (cache : ImageCache), resolveMediaUrl host src chromeUrl = some url →
    cache.peek url = some (.ready image) → (intrinsicSize host src chromeUrl cache).1 = some image

/-- The directory of a document on disk. -/
def imageBase (host : Host) (chromeUrl : String) : Option String :=
  (stripPrefix "file:///" chromeUrl).bind host.parentDir

/-- `src` is a URL, or the document has a host, or nothing to be relative to. -/
def LaysOut (host : Host) (src chromeUrl : String) : Prop :=
  startsWith "mizu://" src ∨
  (startsWith "file://" src ∧ (startsWith "file://" chromeUrl → host.uriDomain chromeUrl = none)) ∨
  (¬startsWith "file://" src ∧ (host.uriDomain chromeUrl ≠ none ∨ imageBase host chromeUrl = none))

section

variable {host : Host} {src chromeUrl : String}

theorem layoutImageUrl_of_mizu (h : startsWith "mizu://" src) : layoutImageUrl host src chromeUrl = src := by
  rw [layoutImageUrl, if_pos h]

variable {domain : String}

theorem layoutImageUrl_of_domain (h : ¬startsWith "mizu://" src)
    (hdomain : host.uriDomain chromeUrl = some domain) : layoutImageUrl host src chromeUrl =
      "mizu://" ++ domain ++ if startsWith "/" src then src else "/" ++ src := by
  rw [layoutImageUrl, if_neg h]
  simp only [hdomain]

theorem layoutImageUrl_of_file (h : ¬startsWith "mizu://" src) (hdomain : host.uriDomain chromeUrl = none) :
    layoutImageUrl host src chromeUrl = src := by
  rw [layoutImageUrl, if_neg h]
  simp only [hdomain]

/-- A URL that paint asks for under the scheme that layout adds. -/
theorem startsWith_mizu_of_domain (h : ¬startsWith "mizu://" src)
    (hdomain : host.uriDomain chromeUrl = some domain) :
    startsWith "mizu://" (layoutImageUrl host src chromeUrl) := by
  rw [layoutImageUrl_of_domain h hdomain, String.append_assoc]
  exact startsWith_self _ _

theorem resolveMediaUrl_of_mizu {url : String} (h : startsWith "mizu://" src)
    (hurl : resolveMediaUrl host src chromeUrl = some url) : url = src := by
  simp only [resolveMediaUrl, if_pos h] at hurl
  split at hurl
  · split at hurl
    · exact (some.inj hurl).symm
    · cases hurl
  · exact (some.inj hurl).symm

theorem resolveMediaUrl_of_file (h : ¬startsWith "mizu://" src) (hfile : startsWith "file://" src) :
    resolveMediaUrl host src chromeUrl = if startsWith "file://" chromeUrl then some src else none := by
  simp only [resolveMediaUrl, if_neg h, if_pos hfile]

theorem resolveMediaUrl_of_domain (h : ¬startsWith "mizu://" src)
    (hfile : ¬startsWith "file://" src) (hdomain : host.uriDomain chromeUrl = some domain) :
    resolveMediaUrl host src chromeUrl = some (layoutImageUrl host src chromeUrl) := by
  rw [layoutImageUrl_of_domain h hdomain]
  simp only [resolveMediaUrl, if_neg h, if_neg hfile, hdomain]

theorem resolveMediaUrl_of_relative (h : ¬startsWith "mizu://" src) (hfile : ¬startsWith "file://" src)
    (hdomain : host.uriDomain chromeUrl = none) :
    resolveMediaUrl host src chromeUrl =
      (imageBase host chromeUrl).map fun parent => "file:///" ++ forwardSlashes (join parent src) := by
  simp only [resolveMediaUrl, if_neg h, if_neg hfile, hdomain, imageBase]
  cases stripPrefix "file:///" chromeUrl <;> rfl

theorem startsWith_file_of_slash (s : String) : startsWith "file://" ("file:///" ++ s) := by
  have h : "file:///" ++ s = "file://" ++ ("/" ++ s) := by
    rw [← String.append_assoc]
    rfl
  rw [h]
  exact startsWith_self _ _

/-- The key that layout uses is the one that paint uses. -/
theorem layoutImageUrl_eq (h : LaysOut host src chromeUrl) {url : String}
    (hurl : resolveMediaUrl host src chromeUrl = some url) : layoutImageUrl host src chromeUrl = url := by
  by_cases hmizu : startsWith "mizu://" src
  · rw [layoutImageUrl_of_mizu hmizu, resolveMediaUrl_of_mizu hmizu hurl]
  rcases h with hmizu' | ⟨hfile, hnone⟩ | ⟨hfile, hdomain⟩
  · exact absurd hmizu' hmizu
  · rw [resolveMediaUrl_of_file hmizu hfile] at hurl
    by_cases horigin : startsWith "file://" chromeUrl
    · rw [if_pos horigin] at hurl
      rw [layoutImageUrl_of_file hmizu (hnone horigin), some.inj hurl]
    · rw [if_neg horigin] at hurl
      cases hurl
  · cases hd : host.uriDomain chromeUrl with
    | some domain => grind [resolveMediaUrl_of_domain]
    | none =>
      -- a relative path with nothing to be relative to is not asked for
      have hdir := hdomain.resolve_left (not_not.mpr hd)
      rw [resolveMediaUrl_of_relative hmizu hfile hd, hdir] at hurl
      cases hurl

/-- Elsewhere paint asks for a key that layout never looks up. -/
theorem layoutImageUrl_ne (h : ¬LaysOut host src chromeUrl) :
    ∃ url, resolveMediaUrl host src chromeUrl = some url ∧ layoutImageUrl host src chromeUrl ≠ url := by
  simp only [LaysOut, not_or, not_and, Classical.not_imp] at h
  obtain ⟨hmizu, hfile, hrelative⟩ := h
  by_cases hf : startsWith "file://" src
  · obtain ⟨horigin, hdomain⟩ := hfile hf
    obtain ⟨domain, hd⟩ := ne_none_iff_exists'.mp hdomain
    refine ⟨src, by rw [resolveMediaUrl_of_file hmizu hf, if_pos horigin], fun heq => ?_⟩
    exact hmizu (heq ▸ startsWith_mizu_of_domain hmizu hd)
  · have hd := not_not.mp (hrelative hf).1
    obtain ⟨dir, hdir⟩ := ne_none_iff_exists'.mp (hrelative hf).2
    refine ⟨"file:///" ++ forwardSlashes (join dir src), ?_, fun heq => hf ?_⟩
    · rw [resolveMediaUrl_of_relative hmizu hf hd, hdir]
      rfl
    · grind [layoutImageUrl_of_file, startsWith_file_of_slash]

end

/-- The keys agree exactly for the images that are laid out. -/
theorem imageKeys_agree_iff (host : Host) (src chromeUrl : String) :
    KeysAgree host src chromeUrl ↔ LaysOut host src chromeUrl := by
  constructor
  · intro h
    by_contra hnot
    obtain ⟨url, hurl, hne⟩ := layoutImageUrl_ne hnot
    exact hne (h.key_eq url hurl)
  · intro h
    refine ⟨fun url hurl => layoutImageUrl_eq h hurl, fun url image cache hurl hpeek => ?_⟩
    show (cache.peek (layoutImageUrl host src chromeUrl)).bind AssetSlot.image = some image
    rw [layoutImageUrl_eq h hurl, hpeek]
    rfl

/-- The image of a document on disk: it is asked for by its place, and looked up by its name. -/
theorem imageKeys_disagree :
    ¬∀ (host : Host) (src chromeUrl : String), KeysAgree host src chromeUrl := by
  intro h
  have hkeys := (h { plainHost with parentDir := UnixPath.parent } "logo.png" "file:///home/doc.mizu").key_eq
    "file:///home/logo.png" (by decide)
  exact absurd hkeys (by decide)

end Mizu
