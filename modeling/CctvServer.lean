import CctvServer.RequestStream
import CctvServer.Replies
import CctvServer.HistoryQueries
import CctvServer.Accounts
import CctvServer.Overlay
import CctvServer.ImageTransfer
import CctvServer.Confinement
import CctvServer.ReadBack
import CctvServer.DateFilter
import CctvServer.AccountIsolation
import CctvServer.FrameSettings
import CctvServer.UploadHeader
import CctvServer.DownloadLoop
import CctvServer.Paging
import CctvServer.HistoryRows
import CctvServer.Mutators
import CctvServer.LongNames
import CctvServer.UploadReplies
import CctvServer.CompactEntries
import CctvServer.LineEndings
import CctvServer.FrameReplies
import CctvServer.ConfigText
import CctvServer.TornConfig
import CctvServer.ReplyJson
import CctvServer.ServerRuns
