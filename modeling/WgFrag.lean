import WgFrag.Control.Agreement
import WgFrag.Control.Backoff
import WgFrag.Control.BoundedMap
import WgFrag.Control.Drive
import WgFrag.Control.History
import WgFrag.Control.Rotation
import WgFrag.Control.Windows
import WgFrag.Data.ErrorMessage
import WgFrag.Data.Eviction
import WgFrag.Data.Ledger
import WgFrag.Data.Order
import WgFrag.Data.Packing
import WgFrag.Data.Provenance
import WgFrag.Data.RoundTrip
import WgFrag.Data.Vacancy
import WgFrag.Manager.Exclusive
import WgFrag.Manager.Idempotence
import WgFrag.Shim.Materialize
import WgFrag.Shim.Retained
import WgFrag.Wgbind.Oversized
