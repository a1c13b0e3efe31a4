import Btps.JsString
import Btps.Identity
import Btps.Pem
import Btps.DnsTxt
import Btps.ServerResponse
import Btps.Trust.Record
import Btps.Trust.FileSystem
import Btps.Trust.Program
import Btps.Trust.JsonTrustStore
import Btps.Trust.TrustIds
import Btps.Trust.Persistence
import Btps.Trust.Interleaving
import Btps.Trust.Discipline
import Btps.Trust.Concurrency
import Btps.Trust.RecordInvariant
import Btps.Trust.SharedIds
import Btps.Trust.SharedRefinement
